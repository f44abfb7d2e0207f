import BootableRecovery.Applypatch.Frames
import Mathlib.Order.Bounds.Basic

/-!
# `LoadPartitionContents`: the smallest size with a listed hash

A partition has no end of file, so its name lists the sizes that the contents can have,
with the hash for each.

* `PartitionName` is a name with well-formed pairs, `matchingSizes` are the listed sizes
  whose prefix of the partition has the hash that is listed with it.
* `partitionLoop_ensures`: the loop over sorted pairs finds the least of them.
* `loadPartitionContents_selects`: so does the function, for pairs in any order, with
  whatever order `qsort` gives pairs with equal sizes.
-/

namespace BootableRecovery.Applypatch

/-! ## Well-formed names -/

/-- A pair of a name: a positive decimal size that fits a `long`, and 40 hexadecimal
digits. -/
structure SizePair where
  size_str : Bytes
  sha1sum : Bytes
  size_digits : ∀ c ∈ size_str, isDigit c = true
  size_pos : 0 < readNat size_str
  size_fits : readNat size_str < 2 ^ 31
  sha1_length : sha1sum.length = 40
  sha1_digits : ∀ c ∈ sha1sum, (hexDigit c).isSome = true

def SizePair.size (p : SizePair) : Nat := readNat p.size_str

/-- The pair as the parsed name has it. -/
def SizePair.parsed (p : SizePair) : Nat × Option Bytes := (p.size, some p.sha1sum)

def magic : PartitionType → Bytes
  | .MTD => ascii "MTD"
  | .EMMC => ascii "EMMC"

/-- A name `TYPE:partition:size_1:sha1_1:...` with at least one pair. -/
structure PartitionName where
  type : PartitionType
  partition : Bytes
  pairs : List SizePair
  partition_ne : partition ≠ []
  partition_colon : 58 ∉ partition
  pairs_ne : pairs ≠ []

def PartitionName.tokens (name : PartitionName) : List Bytes :=
  magic name.type :: name.partition :: name.pairs.flatMap fun p => [p.size_str, p.sha1sum]

def PartitionName.filename (name : PartitionName) : Bytes := [58].intercalate name.tokens

/-- What the partition of the name has. -/
def PartitionName.content (name : PartitionName) (w : Storage) : Bytes :=
  w.parts name.type name.partition

section Name

theorem colon_isDigit : isDigit 58 = false := by decide

theorem SizePair.size_str_ne (p : SizePair) : p.size_str ≠ [] := by
  intro hnil
  have hpos := p.size_pos
  rw [hnil] at hpos
  exact absurd hpos (by decide)

theorem SizePair.token (p : SizePair) {t : Bytes} (ht : t ∈ [p.size_str, p.sha1sum]) :
    t ≠ [] ∧ 58 ∉ t := by
  simp only [List.mem_cons, List.not_mem_nil, or_false] at ht
  rcases ht with rfl | rfl
  · refine ⟨p.size_str_ne, fun hc => ?_⟩
    have hdigit := p.size_digits 58 hc
    rw [colon_isDigit] at hdigit
    cases hdigit
  · refine ⟨fun hnil => ?_, fun hc => ?_⟩
    · have hlen := p.sha1_length
      rw [hnil] at hlen
      cases hlen
    · exact absurd (p.sha1_digits 58 hc) (by decide)

theorem PartitionName.token (name : PartitionName) {t : Bytes} (ht : t ∈ name.tokens) :
    t ≠ [] ∧ 58 ∉ t := by
  rcases List.mem_cons.mp ht with rfl | ht
  · cases name.type with
    | MTD => decide
    | EMMC => decide
  rcases List.mem_cons.mp ht with rfl | ht
  · exact ⟨name.partition_ne, name.partition_colon⟩
  · obtain ⟨p, -, ht⟩ := List.mem_flatMap.mp ht
    exact p.token ht

theorem PartitionName.tokens_length (name : PartitionName) :
    name.tokens.length = 2 + 2 * name.pairs.length := by
  simp only [PartitionName.tokens, List.length_cons, List.length_flatMap, List.map_const',
    List.length_nil, List.sum_replicate]
  simp
  omega

theorem PartitionName.nameTokens_eq (name : PartitionName) :
    nameTokens name.filename = name.tokens :=
  strtokAll_intercalate (fun _ ht => name.token ht)
    (length_le_intercalate fun _ ht => (name.token ht).1)

/-- The number of pairs that is computed from the number of colons. -/
theorem PartitionName.pairs_count (name : PartitionName) :
    (name.filename.count 58 - 1) / 2 = name.pairs.length := by
  unfold PartitionName.filename
  rw [count_intercalate fun _ ht => (name.token ht).2, name.tokens_length]
  omega

theorem PartitionName.partitionType_eq (name : PartitionName) :
    partitionType name.filename = name.type := by
  have hcons : name.filename = magic name.type ++ 58 ::
      [58].intercalate (name.partition :: name.pairs.flatMap fun p => [p.size_str, p.sha1sum]) := by
    simp [PartitionName.filename, PartitionName.tokens, List.intercalate]
  rw [hcons]
  cases name.type with
  | MTD => rfl
  | EMMC => rfl

theorem SizePair.parseSize_eq (p : SizePair) : parseSize p.size_str = p.size := by
  have hatoi : atoi p.size_str = p.size := by
    have hdigits := p.size_digits
    unfold SizePair.size
    cases hstr : p.size_str with
    | nil => exact absurd hstr p.size_str_ne
    | cons c s =>
      rw [hstr] at hdigits
      exact atoi_of_isDigit (hdigits c List.mem_cons_self) s
  have hfits : (p.size : Int) < 2 ^ 31 := by exact_mod_cast p.size_fits
  rw [parseSize, hatoi, min_eq_right (by omega), max_eq_right (by omega),
    toU32_of_range (by omega)]

/-- The pairs of a name are those of its tokens. -/
theorem partitionPairs_eq {init : List Bytes} {pairs : List SizePair} {i : Nat}
    (hinit : init.length = 2 + 2 * i) :
    partitionPairs (init ++ pairs.flatMap fun p => [p.size_str, p.sha1sum]) pairs.length i =
      .done (some (pairs.map SizePair.parsed)) := by
  induction pairs generalizing init i with
  | nil => rfl
  | cons p pairs ih =>
    have htokens : init ++ (p :: pairs).flatMap (fun p => [p.size_str, p.sha1sum]) =
        (init ++ [p.size_str, p.sha1sum]) ++
          pairs.flatMap fun p => [p.size_str, p.sha1sum] := by
      simp
    have hsize : (init ++ (p :: pairs).flatMap fun p => [p.size_str, p.sha1sum])[2 + 2 * i]? =
        some p.size_str := by
      rw [← hinit, List.getElem?_append_right le_rfl]
      simp
    have hsha : (init ++ (p :: pairs).flatMap fun p => [p.size_str, p.sha1sum])[3 + 2 * i]? =
        some p.sha1sum := by
      rw [show 3 + 2 * i = init.length + 1 by omega,
        List.getElem?_append_right (Nat.le_add_right _ _)]
      simp
    have hpos : p.size ≠ 0 := Nat.pos_iff_ne_zero.mp p.size_pos
    have hrest := @ih (init ++ [p.size_str, p.sha1sum]) (i + 1) (by simp [hinit]; omega)
    rw [← htokens] at hrest
    rw [List.length_cons, partitionPairs, hsize]
    dsimp only
    rw [p.parseSize_eq, if_neg hpos, hrest, hsha]
    rfl

theorem PartitionName.partitionPairs_eq (name : PartitionName) :
    partitionPairs (nameTokens name.filename) ((name.filename.count 58 - 1) / 2) 0 =
      .done (some (name.pairs.map SizePair.parsed)) := by
  rw [name.nameTokens_eq, name.pairs_count]
  exact @Applypatch.partitionPairs_eq [magic name.type, name.partition] name.pairs 0 rfl

theorem hexBytes_isSome {s : Bytes} (hlen : s.length % 2 = 0)
    (h : ∀ c ∈ s, (hexDigit c).isSome = true) : (hexBytes s).isSome = true := by
  induction s using hexBytes.induct with
  | case1 => rfl
  | case2 c => simp at hlen
  | case3 hi lo ps ih =>
    obtain ⟨x, hx⟩ := Option.isSome_iff_exists.mp (h hi (by simp))
    obtain ⟨y, hy⟩ := Option.isSome_iff_exists.mp (h lo (by simp))
    have hps := ih (by simp only [List.length_cons] at hlen; omega) fun c hc => h c (by simp [hc])
    obtain ⟨rest, hrest⟩ := Option.isSome_iff_exists.mp hps
    simp [hexBytes, hx, hy, hrest]

theorem SizePair.exists_parseSha1 (p : SizePair) : ∃ d, parseSha1 p.sha1sum = some d := by
  have hsome := hexBytes_isSome (by rw [p.sha1_length]) p.sha1_digits
  rw [parseSha1, if_pos p.sha1_length]
  exact Option.isSome_iff_exists.mp hsome

end Name

/-! ## Reading without errors -/

/-- The partition is found, and only a read behind its end is short. -/
def NoIoError (w : Storage) : (o : Op) → Ans o → Prop
  | .openPartition _ _, found => found = true
  | .readPartition type partition pos n, read =>
    read = none → (w.parts type partition).length < pos + n
  | _, _ => True

/-- An operation without an I/O error. -/
def ReadStep (w : Storage) (o : Op) (x : Ans o) (w' : Storage) : Prop :=
  Step w o x w' ∧ NoIoError w o x

section Select

variable (sha : Bytes → Bytes)

/-- The sizes of pairs that the contents match. -/
def matchingSizes (content : Bytes) (pairs : List SizePair) : Set Nat :=
  {n | ∃ p ∈ pairs, p.size = n ∧ n ≤ content.length ∧
    parseSha1 p.sha1sum = some (sha (content.take n))}

/-- The first `n` bytes of a partition as they are returned. -/
def loadedPrefix (content : Bytes) (n : Nat) : FileContents :=
  ⟨some (content.take n), n, sha (content.take n), ⟨0o644, 0, 0⟩⟩

/-- The least size that the contents match was found, or there is none. -/
def Selected (content : Bytes) (pairs : List SizePair) (r : Int × FileContents) : Prop :=
  (∃ n, IsLeast (matchingSizes sha content pairs) n ∧ r = (0, loadedPrefix sha content n)) ∨
    (matchingSizes sha content pairs = ∅ ∧ r.1 = -1)

variable {sha} {w : Storage} {content : Bytes} {pairs : List SizePair} {p : SizePair}

theorem matchingSizes_cons_of_not
    (h : ¬(p.size ≤ content.length ∧ parseSha1 p.sha1sum = some (sha (content.take p.size)))) :
    matchingSizes sha content (p :: pairs) = matchingSizes sha content pairs := by
  ext n
  constructor
  · rintro ⟨q, hq, rfl, hq'⟩
    rcases List.mem_cons.mp hq with rfl | hq
    · exact absurd hq' h
    · exact ⟨q, hq, rfl, hq'⟩
  · rintro ⟨q, hq, hq'⟩
    exact ⟨q, List.mem_cons_of_mem p hq, hq'⟩

/-- The first pair by size that matches has the least size. -/
theorem isLeast_of_head (hle : ∀ q ∈ pairs, p.size ≤ q.size) (hlen : p.size ≤ content.length)
    (hsha : parseSha1 p.sha1sum = some (sha (content.take p.size))) :
    IsLeast (matchingSizes sha content (p :: pairs)) p.size := by
  refine ⟨⟨p, List.mem_cons_self, rfl, hlen, hsha⟩, ?_⟩
  rintro n ⟨q, hq, rfl, -⟩
  rcases List.mem_cons.mp hq with rfl | hq
  · exact le_rfl
  · exact hle q hq

/-- No size matches when all are behind the end of the partition. -/
theorem matchingSizes_of_short (h : ∀ q ∈ pairs, content.length < q.size) :
    matchingSizes sha content pairs = ∅ := by
  rw [Set.eq_empty_iff_forall_notMem]
  rintro n ⟨q, hq, rfl, hlen, -⟩
  exact absurd hlen (Nat.not_le_of_lt (h q hq))

theorem testPair_parsed (data : Bytes) (p : SizePair) :
    testPair sha data (some p.sha1sum) =
      if parseSha1 p.sha1sum = some (sha data) then .matched else .next := by
  obtain ⟨d, hd⟩ := p.exists_parseSha1
  simp only [testPair, hd, Option.some.injEq]
  exact if_congr eq_comm rfl rfl

/-- Reading up to the size of the next pair: all the bytes, or the partition is too short. -/
theorem readMore_ensures {type : PartitionType} {partition : Bytes}
    (hcontent : w.parts type partition = content) {n size : Nat} (hn : n ≤ content.length)
    (hsize : n ≤ size) :
    (readMore type partition n (size - n)).Ensures ReadStep (· = w)
      (fun read _ => (read = none ∧ content.length < size) ∨
        ∃ b, read = some b ∧ size ≤ content.length ∧ content.take n ++ b = content.take size)
      w := by
  unfold readMore
  split_ifs with hmore
  · refine ⟨rfl, ?_, fun read w' hstep => ?_⟩
    · by_cases hin : n + (size - n) ≤ content.length
      · exact ⟨_, w, .readPartition_ok (hcontent ▸ hin), fun h => by cases h⟩
      · refine ⟨none, w, .readPartition_short .., fun _ => ?_⟩
        rw [hcontent]
        exact Nat.lt_of_not_le hin
    · obtain ⟨hstep, herror⟩ := hstep
      cases hstep with
      | readPartition_ok hin =>
        rw [hcontent] at hin ⊢
        refine ⟨rfl, .inr ⟨_, rfl, by omega, ?_⟩⟩
        rw [take_append_slice, Nat.add_sub_cancel' hsize]
      | readPartition_short =>
        have hshort : (w.parts type partition).length < n + (size - n) := herror rfl
        rw [hcontent, Nat.add_sub_cancel' hsize] at hshort
        exact ⟨rfl, .inl ⟨rfl, hshort⟩⟩
  · have heq : size = n := by omega
    exact ⟨rfl, .inr ⟨[], rfl, heq ▸ hn, by rw [heq, List.append_nil]⟩⟩

/-- The loop over sorted pairs, with the first `n` bytes of the partition read. -/
theorem partitionLoop_ensures {type : PartitionType} {partition : Bytes}
    (hcontent : w.parts type partition = content) {n : Nat} {file : FileContents}
    (hn : n ≤ content.length) (hle : ∀ p ∈ pairs, n ≤ p.size)
    (hsorted : pairs.Pairwise fun p q => p.size ≤ q.size) :
    (partitionLoop sha type partition (pairs.map SizePair.parsed) (content.take n) file).Ensures
      ReadStep (· = w) (fun r _ => Selected sha content pairs r) w := by
  induction pairs generalizing n file with
  | nil =>
    have hnone : matchingSizes sha content [] = ∅ := matchingSizes_of_short fun q hq => by cases hq
    exact ⟨rfl, .inr ⟨hnone, rfl⟩⟩
  | cons p pairs ih =>
    obtain ⟨hhead, htail⟩ := List.pairwise_cons.mp hsorted
    have hlen : (content.take n).length = n := List.length_take_of_le hn
    rw [List.map_cons, SizePair.parsed, partitionLoop, hlen]
    refine (readMore_ensures hcontent hn (hle p List.mem_cons_self)).bind fun read w' hw hread => ?_
    subst hw
    obtain ⟨rfl, hshort⟩ | ⟨b, rfl, hsize, happ⟩ := hread
    · refine ⟨rfl, .inr ⟨matchingSizes_of_short fun q hq => ?_, rfl⟩⟩
      rcases List.mem_cons.mp hq with rfl | hq
      · exact hshort
      · exact lt_of_lt_of_le hshort (hhead q hq)
    simp only [happ, testPair_parsed]
    have htake : (content.take p.size).length = p.size := List.length_take_of_le hsize
    split_ifs with hsha
    · refine ⟨rfl, .inl ⟨p.size, isLeast_of_head hhead hsize hsha, ?_⟩⟩
      rw [loadedPrefix, htake]
    · dsimp only
      refine (ih hsize hhead htail).mono fun r _ _ hr => ?_
      rwa [Selected, matchingSizes_cons_of_not fun h => hsha h.2]

/-- The loop does not depend on the order of the pairs. -/
theorem Selected.perm {sorted : List SizePair} {r : Int × FileContents}
    (h : Selected sha content sorted r) (hperm : sorted.Perm pairs) :
    Selected sha content pairs r := by
  have heq : matchingSizes sha content sorted = matchingSizes sha content pairs := by
    ext n
    exact exists_congr fun p => and_congr_left' hperm.mem_iff
  rwa [Selected, heq] at h

/-- The indexes can be sorted. -/
theorem exists_sorted (size : List Nat) :
    ∃ index : List Nat, index.Perm (List.range size.length) ∧
      index.Pairwise fun aa bb => compareSizeIndices size aa bb ≤ 0 := by
  let le (aa bb : Nat) : Bool := decide (size.getD aa 0 ≤ size.getD bb 0)
  have hsorted : ((List.range size.length).mergeSort le).Pairwise fun aa bb => le aa bb = true := by
    refine List.pairwise_mergeSort (fun aa bb cc hab hbc => ?_) (fun aa bb => ?_) _
    · simp only [le, decide_eq_true_eq] at hab hbc ⊢
      exact le_trans hab hbc
    · simp only [le, Bool.or_eq_true, decide_eq_true_eq]
      exact le_total _ _
  refine ⟨_, List.mergeSort_perm _ le, hsorted.imp fun h => ?_⟩
  rw [compareSizeIndices_le_zero]
  exact of_decide_eq_true h

/-- The pairs in the order of sorted indexes. -/
theorem inOrder_parsed {index : List Nat}
    (hperm : index.Perm (List.range pairs.length))
    (hsorted : index.Pairwise fun aa bb =>
      compareSizeIndices ((pairs.map SizePair.parsed).map (·.1)) aa bb ≤ 0) :
    ∃ sorted : List SizePair, inOrder (pairs.map SizePair.parsed) index =
      sorted.map SizePair.parsed ∧ sorted.Perm pairs ∧
        sorted.Pairwise fun p q => p.size ≤ q.size := by
  have hmap : inOrder (pairs.map SizePair.parsed) index =
      (index.filterMap (pairs[·]?)).map SizePair.parsed := by
    rw [inOrder, List.map_filterMap]
    exact congrArg (List.filterMap · index) (funext fun i => List.getElem?_map)
  have hpair := inOrder_sorted hsorted
  rw [hmap, List.pairwise_map] at hpair
  exact ⟨_, hmap, filterMap_getElem?_perm hperm, hpair⟩

variable (sha w) in
/-- `LoadPartitionContents` returns the prefix of the least listed size that has the hash
listed with it, and fails when there is none. -/
theorem loadPartitionContents_selects (name : PartitionName) (file : FileContents) :
    (loadPartitionContents sha name.filename file).Ensures ReadStep (· = w)
      (fun r _ =>
        (r.1 = 0 ↔ (matchingSizes sha (name.content w) name.pairs).Nonempty) ∧
        (r.1 = 0 → ∃ n, IsLeast (matchingSizes sha (name.content w) name.pairs) n ∧
          r.2 = loadedPrefix sha (name.content w) n)) w := by
  have htoken : (nameTokens name.filename)[1]? = some name.partition := by
    rw [name.nameTokens_eq]
    rfl
  unfold loadPartitionContents
  rw [htoken, name.partitionPairs_eq, name.partitionType_eq]
  dsimp only
  refine ⟨rfl, ?_, fun index w' hstep => ?_⟩
  · obtain ⟨index, hperm, hsorted⟩ := exists_sorted ((name.pairs.map SizePair.parsed).map (·.1))
    exact ⟨index, w, .qsort hperm hsorted, trivial⟩
  obtain ⟨hstep, -⟩ := hstep
  cases hstep with
  | qsort hperm hsorted =>
  rw [List.length_map, List.length_map] at hperm
  obtain ⟨sorted, hmap, hp, hpair⟩ := inOrder_parsed hperm hsorted
  refine ⟨rfl, ⟨true, w, .openPartition .., rfl⟩, fun found w' hstep => ?_⟩
  obtain ⟨hstep, rfl⟩ := hstep
  cases hstep
  show (readPairs sha name.type name.partition (inOrder _ index) file).Ensures _ _ _ _
  have hne : sorted.map SizePair.parsed ≠ [] := by
    rw [Ne, List.map_eq_nil_iff]
    exact fun hnil => name.pairs_ne (hnil ▸ hp).nil_eq.symm
  rw [hmap, readPairs, if_neg hne]
  have hloop := @partitionLoop_ensures sha w (name.content w) sorted name.type name.partition rfl
    0 { file with size := 0 } (Nat.zero_le _) (fun _ _ => Nat.zero_le _) hpair
  rw [List.take_zero] at hloop
  refine hloop.mono fun r _ _ hr => ?_
  rcases hr.perm hp with ⟨n, hleast, rfl⟩ | ⟨hnone, hret⟩
  · exact ⟨iff_of_true rfl ⟨n, hleast.1⟩, fun _ => ⟨n, hleast, rfl⟩⟩
  · have hfail : r.1 ≠ 0 := by rw [hret]; decide
    exact ⟨iff_of_false hfail (by rw [hnone]; exact Set.not_nonempty_empty), fun h => absurd h hfail⟩

end Select

end BootableRecovery.Applypatch
