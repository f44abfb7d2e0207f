import BootableRecovery.Retouch

/-!
# What `retouch_mask_data` reads and writes

A call reads the tags, the size of the list, the records of the list and the
words they name; when a shift is given it writes these words. The words should
lie in the code in front of the list, or be the one in `prelink_info_t`. The
check of an entry compares the offset with the end of the code, but a word has
four bytes, so the last three offsets name words that reach into the list.

* `maskAccesses` lists the accesses of a call, in step with the run.
* `maskAccesses_read`: all reads are inside the buffer.
* `retouch_confined_iff`: when all writes are where they should be.

A call always returns: every record that is decoded moves `b_ptr`
(`decode_in_memory_lt`), and this is the measure of `retouch_loop`.
-/

namespace BootableRecovery.Retouch

/-! ## Accesses -/

/-- An access to `n` bytes of the buffer. -/
inductive Access
  | read (pos n : Nat)
  | write (pos n : Nat)
  deriving DecidableEq, Repr

/-- The accesses of one round: the record, and the word of an entry that is accepted. -/
def roundAccesses (b_offs : Int) (p_offs : Nat) (desired_offset : Option (BitVec 32))
    (s : RetouchLoop) : List Access :=
  let r := decode_in_memory s.binary_object s.prev s.b_ptr
  .read s.b_ptr (r.1 - s.b_ptr) ::
    match retouch_entry b_offs p_offs r.2.offset with
    | none => []
    | some addr =>
      if desired_offset.isSome then [.write addr 4, .read addr 4] else [.read addr 4]

/-- The accesses of the loop. -/
def loopAccesses (b_offs : Int) (r_offs p_offs : Nat) (desired_offset : Option (BitVec 32))
    (s : RetouchLoop) : List Access :=
  if s.b_ptr < r_offs then
    roundAccesses b_offs p_offs desired_offset s ++
      match _h : retouch_round b_offs p_offs desired_offset s with
      | none => []
      | some s' => loopAccesses b_offs r_offs p_offs desired_offset s'
  else []
termination_by r_offs - s.b_ptr
decreasing_by
  have hlt := retouch_round_b_ptr _h
  omega

/-- The variables before the loop. -/
def startLoop (data : Bytes) (desired_offset : Option (BitVec 32)) : RetouchLoop :=
  ⟨data, (bOffs data).toNat, init_compression_state, desired_offset.getD 0, false, false⟩

/-- The accesses of a call. The tags are read as far as `strncmp` goes at most. -/
def maskAccesses (data : Bytes) (desired_offset : Option (BitVec 32)) : List Access :=
  if rOffs data < 0 then []
  else
    .read ((pOffs data).toNat + 4) 4 :: .read (rOffs data).toNat 8 ::
      if tagged data = false then []
      else
        .read ((rOffs data).toNat + 8) 4 ::
          if bOffs data < 0 then []
          else
            loopAccesses (bOffs data) (rOffs data).toNat (pOffs data).toNat desired_offset
              (startLoop data desired_offset)

/-! ## Reads -/

/-- The places of the parts of a retouched binary. -/
structure Layout (data : Bytes) (b_offs : Int) (r_offs p_offs : Nat) : Prop where
  info : r_offs + 12 = p_offs
  prelink : p_offs + 8 = data.length
  code : 0 ≤ b_offs

theorem layout_of {data : Bytes} (hr : ¬ rOffs data < 0) (hb : ¬ bOffs data < 0) :
    Layout data (bOffs data) (rOffs data).toNat (pOffs data).toNat := by
  unfold rOffs pOffs at *
  exact ⟨by omega, by omega, by omega⟩

section Loop

variable {data : Bytes} {b_offs : Int} {r_offs p_offs : Nat} {desired_offset : Option (BitVec 32)}

theorem decode_in_memory_le (binary_object : Bytes) (prev : Entry) (b_ptr : Nat) :
    (decode_in_memory binary_object prev b_ptr).1 ≤ b_ptr + 8 := by
  unfold decode_in_memory
  dsimp only
  rcases input_size_cases (byte binary_object (b_ptr + 0)) with h | h | h <;> rw [h] <;> omega

/-- The word of an accepted entry begins in the code, or is the one in `prelink_info_t`. -/
theorem retouch_entry_some {offset : BitVec 32} {addr : Nat}
    (h : retouch_entry b_offs p_offs offset = some addr) :
    addr = p_offs ∨ 0 ≤ offset.toInt ∧ offset.toInt < b_offs ∧ (addr : Int) = offset.toInt := by
  unfold retouch_entry at h
  split_ifs at h with hbad hprelink
  · exact .inl (Option.some.inj h).symm
  · have haddr := Option.some.inj h
    exact .inr (by omega)

theorem retouch_round_some {s s' : RetouchLoop}
    (h : retouch_round b_offs p_offs desired_offset s = some s') :
    ∃ addr, retouch_entry b_offs p_offs
        (decode_in_memory s.binary_object s.prev s.b_ptr).2.offset = some addr ∧
      s' = s.visit desired_offset addr (decode_in_memory s.binary_object s.prev s.b_ptr).1
        (decode_in_memory s.binary_object s.prev s.b_ptr).2 := by
  simp only [retouch_round] at h
  cases haddr : retouch_entry b_offs p_offs
      (decode_in_memory s.binary_object s.prev s.b_ptr).2.offset with
  | none =>
    rw [haddr] at h
    cases h
  | some addr =>
    rw [haddr] at h
    exact ⟨addr, rfl, (Option.some.inj h).symm⟩

theorem visit_length {s : RetouchLoop} {addr next : Nat} {e : Entry}
    (hfit : addr + 4 ≤ s.binary_object.length) :
    (s.visit desired_offset addr next e).binary_object.length = s.binary_object.length := by
  cases desired_offset with
  | none => rw [visit_none_binary_object]
  | some d =>
    rw [visit_some_binary_object]
    exact overwrite_length (by rw [wordBytes_length]; exact hfit)

/-- A word that is accessed lies inside the buffer. -/
theorem addr_fits (hl : Layout data b_offs r_offs p_offs) (hcode : b_offs ≤ r_offs)
    {offset : BitVec 32} {addr : Nat} (h : retouch_entry b_offs p_offs offset = some addr) :
    addr + 4 ≤ data.length := by
  have hinfo := hl.info
  have hprelink := hl.prelink
  rcases retouch_entry_some h with rfl | ⟨hlow, hhigh, haddr⟩ <;> omega

/-- All reads of the loop are inside the buffer. -/
theorem loopAccesses_read (hl : Layout data b_offs r_offs p_offs) (n : Nat) :
    ∀ s : RetouchLoop, r_offs - s.b_ptr ≤ n → s.binary_object.length = data.length →
      b_offs ≤ s.b_ptr → ∀ pos k,
        .read pos k ∈ loopAccesses b_offs r_offs p_offs desired_offset s → pos + k ≤ data.length := by
  have hinfo := hl.info
  have hprelink := hl.prelink
  induction n with
  | zero =>
    intro s hn hlen hb pos k hmem
    rw [loopAccesses.eq_def, if_neg (by omega)] at hmem
    cases hmem
  | succ n ih =>
    intro s hn hlen hb pos k hmem
    rw [loopAccesses.eq_def] at hmem
    split at hmem
    · rename_i hlt
      have hnext := decode_in_memory_lt s.binary_object s.prev s.b_ptr
      have hle := decode_in_memory_le s.binary_object s.prev s.b_ptr
      rcases List.mem_append.mp hmem with hround | hrest
      · unfold roundAccesses at hround
        rcases List.mem_cons.mp hround with hrec | hword
        · obtain ⟨rfl, rfl⟩ := Access.read.inj hrec
          omega
        · split at hword
          · cases hword
          · rename_i addr haddr
            have hfit := addr_fits hl (by omega) haddr
            split at hword
            · simp only [List.mem_cons, List.not_mem_nil, or_false, reduceCtorEq, false_or,
                Access.read.injEq] at hword
              omega
            · simp only [List.mem_cons, List.not_mem_nil, or_false, Access.read.injEq] at hword
              omega
      · split at hrest
        · cases hrest
        · rename_i s' hs'
          obtain ⟨addr, haddr, rfl⟩ := retouch_round_some hs'
          have hfit := addr_fits hl (by omega) haddr
          refine ih _ ?_ ?_ ?_ pos k hrest
          · rw [visit_b_ptr]
            omega
          · rw [visit_length (by omega), hlen]
          · rw [visit_b_ptr]
            omega
    · cases hmem

end Loop

/-- Every byte that a call reads lies inside the buffer. -/
theorem maskAccesses_read (data : Bytes) (desired_offset : Option (BitVec 32)) (pos n : Nat)
    (h : .read pos n ∈ maskAccesses data desired_offset) : pos + n ≤ data.length := by
  unfold maskAccesses at h
  split at h
  · cases h
  rename_i hr
  have hpos : rOffs data = data.length - 20 := by
    unfold rOffs pOffs
    omega
  have hp : pOffs data = data.length - 8 := rfl
  rcases List.mem_cons.mp h with htag | h
  · obtain ⟨rfl, rfl⟩ := Access.read.inj htag
    omega
  rcases List.mem_cons.mp h with htag | h
  · obtain ⟨rfl, rfl⟩ := Access.read.inj htag
    omega
  split at h
  · cases h
  rcases List.mem_cons.mp h with hsize | h
  · obtain ⟨rfl, rfl⟩ := Access.read.inj hsize
    omega
  split at h
  · cases h
  rename_i hb
  exact loopAccesses_read (layout_of hr hb) _ (startLoop data desired_offset) le_rfl rfl
    (by simp only [startLoop]; omega) pos n h

/-! ## Writes -/

/-- The access is a read, or a write to the code or to the word in `prelink_info_t`. -/
def Access.Allowed (b_offs : Int) (p_offs : Nat) : Access → Prop
  | .read _ _ => True
  | .write pos n => (pos + n : Int) ≤ b_offs ∨ pos = p_offs ∧ n = 4

/-- `Listed data … b_ptr prev e`: decoding from `b_ptr` on, with the entry `prev` before, comes to
the entry `e`, and all entries before it are accepted. -/
inductive Listed (data : Bytes) (b_offs : Int) (r_offs p_offs : Nat) : Nat → Entry → Entry → Prop
  | here {b_ptr : Nat} {prev : Entry} : b_ptr < r_offs →
      Listed data b_offs r_offs p_offs b_ptr prev (decode_in_memory data prev b_ptr).2
  | next {b_ptr : Nat} {prev e : Entry} : b_ptr < r_offs →
      (retouch_entry b_offs p_offs (decode_in_memory data prev b_ptr).2.offset).isSome →
      Listed data b_offs r_offs p_offs (decode_in_memory data prev b_ptr).1
        (decode_in_memory data prev b_ptr).2 e →
      Listed data b_offs r_offs p_offs b_ptr prev e

/-- The word of the entry does not reach from the code into the list. -/
def FitsCode (b_offs : Int) (e : Entry) : Prop :=
  0 ≤ e.offset.toInt → e.offset.toInt < b_offs → e.offset.toInt + 4 ≤ b_offs

/-- The list, `retouch_info_t` and the tag behind `mmap_addr` are as in `data`. -/
structure Kept (data : Bytes) (b_offs : Int) (p_offs : Nat) (binary_object : Bytes) : Prop where
  length_eq : binary_object.length = data.length
  same : ∀ j : Nat, b_offs ≤ j → j < p_offs ∨ p_offs + 4 ≤ j → binary_object[j]? = data[j]?

section Writes

variable {data : Bytes} {b_offs : Int} {r_offs p_offs : Nat}

theorem Kept.refl (data : Bytes) (b_offs : Int) (p_offs : Nat) : Kept data b_offs p_offs data :=
  ⟨rfl, fun _ _ _ => rfl⟩

/-- The bytes of the list decode as before. -/
theorem Kept.decode {s : RetouchLoop} (hk : Kept data b_offs p_offs s.binary_object)
    (hl : Layout data b_offs r_offs p_offs) (hb : b_offs ≤ s.b_ptr) (hlt : s.b_ptr < r_offs) :
    decode_in_memory s.binary_object s.prev s.b_ptr = decode_in_memory data s.prev s.b_ptr := by
  have hle := decode_in_memory_le data s.prev s.b_ptr
  have hinfo := hl.info
  exact decode_in_memory_congr fun j hj hnext => hk.same j (by omega) (.inl (by omega))

/-- A write that is allowed keeps the list. -/
theorem Kept.overwrite {binary_object : Bytes} {addr : Nat} (v : BitVec 32)
    (hk : Kept data b_offs p_offs binary_object) (hfit : addr + 4 ≤ data.length)
    (hallowed : (Access.write addr 4).Allowed b_offs p_offs) :
    Kept data b_offs p_offs (overwrite binary_object addr (wordBytes v)) := by
  have hlen : addr + (wordBytes v).length ≤ binary_object.length := by
    rw [wordBytes_length, hk.length_eq]
    exact hfit
  refine ⟨(overwrite_length hlen).trans hk.length_eq, fun j hj hout => ?_⟩
  rw [overwrite_getElem? hlen, wordBytes_length, if_neg]
  · exact hk.same j hj hout
  · rcases hallowed with hcode | ⟨rfl, -⟩ <;> omega

/-- The word of an accepted entry that does not reach into the list. -/
theorem allowed_of_fits {e : Entry} {addr : Nat} (hfits : FitsCode b_offs e)
    (h : retouch_entry b_offs p_offs e.offset = some addr) :
    (Access.write addr 4).Allowed b_offs p_offs := by
  rcases retouch_entry_some h with rfl | ⟨hlow, hhigh, haddr⟩
  · exact .inr ⟨rfl, rfl⟩
  · have hend := hfits hlow hhigh
    exact .inl (by push_cast; omega)

/-- The bytes that the loop leaves. -/
def leftBytes : Except Bytes RetouchLoop → Bytes
  | .error binary_object => binary_object
  | .ok s => s.binary_object

/-- One round of the loop, when the entry is accepted or not. -/
theorem retouch_loop_round {desired_offset : Option (BitVec 32)} {s : RetouchLoop}
    (hlt : s.b_ptr < r_offs) :
    retouch_loop b_offs r_offs p_offs desired_offset s =
      match retouch_round b_offs p_offs desired_offset s with
      | none => .error s.binary_object
      | some s' => retouch_loop b_offs r_offs p_offs desired_offset s' := by
  rw [retouch_loop.eq_def, if_pos hlt]
  split <;> rename_i heq <;> rw [heq]

theorem loopAccesses_round {desired_offset : Option (BitVec 32)} {s : RetouchLoop}
    (hlt : s.b_ptr < r_offs) :
    loopAccesses b_offs r_offs p_offs desired_offset s =
      roundAccesses b_offs p_offs desired_offset s ++
        match retouch_round b_offs p_offs desired_offset s with
        | none => []
        | some s' => loopAccesses b_offs r_offs p_offs desired_offset s' := by
  rw [loopAccesses.eq_def, if_pos hlt]
  congr 1
  split <;> rename_i heq <;> rw [heq]

/-- When no word reaches from the code into the list, the loop writes where it may and keeps the
list. -/
theorem loop_confined {desired_offset : Option (BitVec 32)}
    (hl : Layout data b_offs r_offs p_offs) (n : Nat) :
    ∀ s : RetouchLoop, r_offs - s.b_ptr ≤ n → Kept data b_offs p_offs s.binary_object →
      b_offs ≤ s.b_ptr →
      (desired_offset ≠ none → ∀ e, Listed data b_offs r_offs p_offs s.b_ptr s.prev e →
        FitsCode b_offs e) →
      (∀ x ∈ loopAccesses b_offs r_offs p_offs desired_offset s, x.Allowed b_offs p_offs) ∧
        Kept data b_offs p_offs
          (leftBytes (retouch_loop b_offs r_offs p_offs desired_offset s)) := by
  have hinfo := hl.info
  induction n with
  | zero =>
    intro s hn hk _ _
    rw [loopAccesses.eq_def, if_neg (by omega), retouch_loop.eq_def, if_neg (by omega)]
    exact ⟨by simp, hk⟩
  | succ n ih =>
    intro s hn hk hb hfits
    rcases Nat.lt_or_ge s.b_ptr r_offs with hlt | hge
    · rw [loopAccesses_round hlt, retouch_loop_round hlt]
      have hdec := hk.decode hl hb hlt
      have hnext := decode_in_memory_lt data s.prev s.b_ptr
      cases hround : retouch_round b_offs p_offs desired_offset s with
      | none =>
        refine ⟨?_, hk⟩
        rw [List.append_nil]
        intro x hx
        have hno : retouch_entry b_offs p_offs
            (decode_in_memory s.binary_object s.prev s.b_ptr).2.offset = none := by
          cases haddr : retouch_entry b_offs p_offs
              (decode_in_memory s.binary_object s.prev s.b_ptr).2.offset with
          | none => rfl
          | some addr =>
            simp only [retouch_round, haddr] at hround
            cases hround
        rw [roundAccesses, hno, List.mem_singleton] at hx
        rw [hx]
        trivial
      | some s' =>
        obtain ⟨addr, haddr, rfl⟩ := retouch_round_some hround
        have hfit := addr_fits hl (by omega) haddr
        dsimp only
        have hlistRest : desired_offset ≠ none → ∀ e, Listed data b_offs r_offs p_offs
            (decode_in_memory s.binary_object s.prev s.b_ptr).1
            (decode_in_memory s.binary_object s.prev s.b_ptr).2 e → FitsCode b_offs e := by
          intro hsome e he
          rw [hdec] at he haddr
          exact hfits hsome e (.next hlt (by rw [haddr]; rfl) he)
        have hwrite : desired_offset ≠ none → (Access.write addr 4).Allowed b_offs p_offs := by
          intro hsome
          rw [hdec] at haddr
          exact allowed_of_fits (hfits hsome _ (.here hlt)) haddr
        have hkept : Kept data b_offs p_offs
            (s.visit desired_offset addr (decode_in_memory s.binary_object s.prev s.b_ptr).1
              (decode_in_memory s.binary_object s.prev s.b_ptr).2).binary_object := by
          cases desired_offset with
          | none =>
            rw [visit_none_binary_object]
            exact hk
          | some d =>
            rw [visit_some_binary_object]
            exact hk.overwrite _ hfit (hwrite (by simp))
        obtain ⟨hall, hleft⟩ := ih _ (by rw [visit_b_ptr, hdec]; omega) hkept
          (by rw [visit_b_ptr, hdec]; omega) (by rw [visit_b_ptr, visit_prev]; exact hlistRest)
        refine ⟨?_, hleft⟩
        intro x hx
        rcases List.mem_append.mp hx with hx | hx
        · rw [roundAccesses, haddr] at hx
          rcases List.mem_cons.mp hx with rfl | hx
          · trivial
          · cases desired_offset with
            | none =>
              rw [List.mem_singleton.mp hx]
              trivial
            | some d =>
              rcases List.mem_cons.mp hx with rfl | hx
              · exact hwrite (by simp)
              · rw [List.mem_singleton.mp hx]
                trivial
        · exact hall x hx
    · rw [loopAccesses.eq_def, if_neg (by omega), retouch_loop.eq_def, if_neg (by omega)]
      exact ⟨by simp, hk⟩

/-- When all writes are where they may be, no word reaches from the code into the list. -/
theorem listed_fits {d : BitVec 32} (hl : Layout data b_offs r_offs p_offs) {b_ptr : Nat}
    {prev e : Entry} (h : Listed data b_offs r_offs p_offs b_ptr prev e) :
    ∀ s : RetouchLoop, s.b_ptr = b_ptr → s.prev = prev →
      Kept data b_offs p_offs s.binary_object → b_offs ≤ s.b_ptr →
      (∀ x ∈ loopAccesses b_offs r_offs p_offs (some d) s, x.Allowed b_offs p_offs) →
      FitsCode b_offs e := by
  have hinfo := hl.info
  induction h with
  | @here b_ptr prev hlt =>
    rintro s rfl rfl hk hb hall
    have hdec := hk.decode hl hb hlt
    intro hlow hhigh
    have haddr : retouch_entry b_offs p_offs
        (decode_in_memory data s.prev s.b_ptr).2.offset =
          some (decode_in_memory data s.prev s.b_ptr).2.offset.toInt.toNat := by
      unfold retouch_entry
      rw [if_neg (by omega), if_neg (by omega)]
    have hmem : Access.write (decode_in_memory data s.prev s.b_ptr).2.offset.toInt.toNat 4 ∈
        loopAccesses b_offs r_offs p_offs (some d) s := by
      rw [loopAccesses_round hlt, roundAccesses, hdec, haddr]
      simp
    rcases hall _ hmem with hcode | ⟨hprelink, -⟩
    · push_cast at hcode
      omega
    · omega
  | @next b_ptr prev e hlt hsome hrest ih =>
    rintro s rfl rfl hk hb hall
    have hdec := hk.decode hl hb hlt
    have hnext := decode_in_memory_lt data s.prev s.b_ptr
    obtain ⟨addr, haddr⟩ := Option.isSome_iff_exists.mp hsome
    have hround : retouch_round b_offs p_offs (some d) s =
        some (s.visit (some d) addr (decode_in_memory data s.prev s.b_ptr).1
          (decode_in_memory data s.prev s.b_ptr).2) := by
      simp only [retouch_round, hdec, haddr]
    rw [loopAccesses_round hlt, hround] at hall
    have hwrite : (Access.write addr 4).Allowed b_offs p_offs := by
      refine hall _ (List.mem_append_left _ ?_)
      rw [roundAccesses, hdec, haddr]
      simp
    refine ih (s.visit (some d) addr (decode_in_memory data s.prev s.b_ptr).1
      (decode_in_memory data s.prev s.b_ptr).2) visit_b_ptr visit_prev ?_ ?_ ?_
    · rw [visit_some_binary_object]
      exact hk.overwrite _ (addr_fits hl (by omega) haddr) hwrite
    · rw [visit_b_ptr]
      omega
    · exact fun x hx => hall x (List.mem_append_right _ hx)

end Writes

/-! ## The call -/

/-- What is asked for: a call reads inside the buffer only, writes the code and the word in
`prelink_info_t` only, and leaves the list, `retouch_info_t` and the tags as they are. -/
structure Confinement (data : Bytes) (desired_offset : Option (BitVec 32)) : Prop where
  reads : ∀ pos n, .read pos n ∈ maskAccesses data desired_offset → pos + n ≤ data.length
  writes : ∀ x ∈ maskAccesses data desired_offset, x.Allowed (bOffs data) (pOffs data).toNat
  kept : Kept data (bOffs data) (pOffs data).toNat
    (retouch_mask_data data desired_offset).binary_object

/-- The condition on a binary: up to the first entry that is refused, no offset in its list is one
of the last three of the code. -/
def EntriesFit (data : Bytes) : Prop :=
  0 ≤ rOffs data → tagged data = true → 0 ≤ bOffs data →
    ∀ e, Listed data (bOffs data) (rOffs data).toNat (pOffs data).toNat (bOffs data).toNat
      init_compression_state e → FitsCode (bOffs data) e

section Call

variable {data : Bytes} {desired_offset : Option (BitVec 32)}

theorem retouch_result_binary_object (r_offs : Nat) (target_offset : BitVec 32)
    (x : Except Bytes RetouchLoop) :
    (retouch_result r_offs target_offset x).binary_object = leftBytes x := by
  cases x with
  | error binary_object => rfl
  | ok s =>
    unfold retouch_result
    dsimp only
    split_ifs <;> rfl

/-- A binary that is not retouched, or has a list that is too long, is left alone. -/
theorem confined_of_early (h : rOffs data < 0 ∨ tagged data = false ∨ bOffs data < 0) :
    Confinement data desired_offset := by
  refine ⟨maskAccesses_read data desired_offset, ?_, ?_⟩
  · intro x hx
    unfold maskAccesses at hx
    split_ifs at hx with hr htag hb
    · cases hx
    · simp only [List.mem_cons, List.not_mem_nil, or_false] at hx
      rcases hx with rfl | rfl <;> trivial
    · simp only [List.mem_cons, List.not_mem_nil, or_false] at hx
      rcases hx with rfl | rfl | rfl <;> trivial
    · rcases h with h | h | h
      · exact absurd h hr
      · exact absurd h htag
      · exact absurd h hb
  · have hsame : (retouch_mask_data data desired_offset).binary_object = data := by
      unfold retouch_mask_data
      split_ifs with hplain _ hb
      · rfl
      · rfl
      · rfl
      · rcases h with h | h | h
        · exact absurd (.inl h) hplain
        · exact absurd (.inr h) hplain
        · exact absurd h hb
    rw [hsame]
    exact Kept.refl _ _ _

/-- A call that goes through the list. -/
theorem confined_of_list (hr : ¬ rOffs data < 0) (htag : ¬ tagged data = false)
    (hb : ¬ bOffs data < 0) :
    Confinement data desired_offset ↔
      (∀ x ∈ loopAccesses (bOffs data) (rOffs data).toNat (pOffs data).toNat desired_offset
          (startLoop data desired_offset), x.Allowed (bOffs data) (pOffs data).toNat) ∧
        Kept data (bOffs data) (pOffs data).toNat
          (leftBytes (retouch_loop (bOffs data) (rOffs data).toNat (pOffs data).toNat
            desired_offset (startLoop data desired_offset))) := by
  have hresult : (retouch_mask_data data desired_offset).binary_object =
      leftBytes (retouch_loop (bOffs data) (rOffs data).toNat (pOffs data).toNat
        desired_offset (startLoop data desired_offset)) := by
    rw [retouch_mask_data, if_neg (not_or.mpr ⟨hr, htag⟩), if_neg hb,
      retouch_result_binary_object]
    rfl
  have haccesses : maskAccesses data desired_offset =
      .read ((pOffs data).toNat + 4) 4 :: .read (rOffs data).toNat 8 ::
        .read ((rOffs data).toNat + 8) 4 ::
          loopAccesses (bOffs data) (rOffs data).toNat (pOffs data).toNat desired_offset
            (startLoop data desired_offset) := by
    rw [maskAccesses, if_neg hr, if_neg htag, if_neg hb]
  constructor
  · intro hconf
    refine ⟨fun x hx => hconf.writes x ?_, hresult ▸ hconf.kept⟩
    rw [haccesses]
    simp [hx]
  · rintro ⟨hall, hkept⟩
    refine ⟨maskAccesses_read data desired_offset, ?_, hresult ▸ hkept⟩
    intro x hx
    rw [haccesses] at hx
    simp only [List.mem_cons] at hx
    rcases hx with rfl | rfl | rfl | hx
    · trivial
    · trivial
    · trivial
    · exact hall x hx

/-- A confined call with a shift has a list whose words fit. -/
theorem entriesFit_of_confined {d : BitVec 32} (h : Confinement data (some d)) :
    EntriesFit data := by
  intro hr htag hb e he
  obtain ⟨hall, -⟩ := (confined_of_list (by omega) (by rw [htag]; decide) (by omega)).mp h
  exact listed_fits (layout_of (by omega) (by omega)) he (startLoop data (some d)) rfl rfl
    (Kept.refl _ _ _) (by simp only [startLoop]; omega) hall

/-- A call is confined exactly when it does not write, or the words of the list fit into the
code. -/
theorem retouch_confined_iff (data : Bytes) (desired_offset : Option (BitVec 32)) :
    Confinement data desired_offset ↔ desired_offset = none ∨ EntriesFit data := by
  constructor
  · intro h
    cases desired_offset with
    | none => exact .inl rfl
    | some d => exact .inr (entriesFit_of_confined h)
  · intro hcond
    by_cases hearly : rOffs data < 0 ∨ tagged data = false ∨ bOffs data < 0
    · exact confined_of_early hearly
    obtain ⟨hr, htag, hb⟩ := by
      rw [not_or, not_or] at hearly
      exact hearly
    refine (confined_of_list hr htag hb).mpr (loop_confined (layout_of hr hb) _ _ le_rfl
      (Kept.refl _ _ _) (by simp only [startLoop]; omega) fun hsome e he => ?_)
    rcases hcond with hnone | hfit
    · exact absurd hnone hsome
    · exact hfit (by omega) (by simpa using htag) (by omega) e he

end Call

/-- A library of one word, whose list names the word at offset 1. -/
def straddlingLibrary : Bytes :=
  List.replicate 4 0 ++ [0, 0, 0, 1, 0x12, 0x34, 0x56, 0x78] ++ ascii "RETOUCH " ++ [8, 0, 0, 0] ++
    [0, 0, 0, 0] ++ ascii "PRE "

/-- Masking it writes the first byte of its list. -/
theorem straddlingLibrary_not_confined : ¬ Confinement straddlingLibrary (some 0) := by
  intro h
  have hb : bOffs straddlingLibrary = 4 := by
    unfold bOffs wrap32
    decide
  have hfit := entriesFit_of_confined h (by decide) (by decide) (by rw [hb]; decide)
  rw [hb] at hfit
  have hdec : (decode_in_memory straddlingLibrary init_compression_state 4).2 =
      ⟨1, 0x12345678⟩ := by decide
  have hword := hfit _ (.here (by decide))
  rw [show (4 : Int).toNat = 4 from rfl, hdec] at hword
  exact absurd (hword (by decide) (by decide)) (by decide)

end BootableRecovery.Retouch
