import Reargo.AddressSets
import Reargo.BulkListing

/-!
# The walk of a body's instructions

The instructions of every range of a body, range by range. A run of ranges that start
where the one before ends is read with one lookup, from the maps or from the sorted copy.
-/
namespace BodyWalk

open PcodeModel OrderedMap SortedKeys FirstEntries SlotPlacement Listings AddressSets BulkListing List

variable {α : Type*}

/-- The ranges as starts and ends, as they come. -/
def spans (body : AddressSet) : List (U64 × U64) :=
  body.ranges.map fun r => (r.start.offset, r.start.offset + r.size)

/-- The calls up to an address, and what is left to read. -/
def readTo (stop : U64) : Bool → Run α → List (Bool × α) × Run α
  | _, [] => ([], [])
  | first, e :: it =>
    if e.1 < stop then
      let r := readTo stop false it
      ((first, e.2) :: r.1, r.2)
    else ([], e :: it)

def readRuns (m : Instructions α) (stop : U64) (it : Run α) : List (U64 × U64) → List (Bool × α)
  | [] => (readTo stop true it).1
  | (s, e) :: ranges =>
    let r := readTo stop true it
    r.1 ++ if s = stop then readRuns m e r.2 ranges else readRuns m e (m.rangeFrom s) ranges

def mapWalk (m : Instructions α) : List (U64 × U64) → List (Bool × α)
  | [] => []
  | (s, e) :: ranges => readRuns m e (m.rangeFrom s) ranges

/-- The calls up to an address from index `i`, and the index reached. -/
def readSorted (sorted : Sorted α) (stop : U64) (first : Bool) (i : ℕ) : List (Bool × α) × ℕ :=
  if h : i < sorted.addrs.length ∧ i < sorted.insns.length then
    if sorted.addrs[i] < stop then
      let r := readSorted sorted stop false (i + 1)
      ((first, sorted.insns[i]) :: r.1, r.2)
    else ([], i)
  else ([], i)
termination_by sorted.addrs.length - i

/-- Where the run from `start` is, looked for from the run before. -/
def findStart (sorted : Sorted α) (last : U64 × ℕ) (start : U64) : ℕ :=
  let low := if start ≥ last.1 then last.2 else 0
  low + partitionPoint (fun a => a < start) (sorted.addrs.drop low)

def readSortedRuns (sorted : Sorted α) (last : U64 × ℕ) (stop : U64) (i : ℕ) :
    List (U64 × U64) → List (Bool × α)
  | [] => (readSorted sorted stop true i).1
  | (s, e) :: ranges =>
    let r := readSorted sorted stop true i
    r.1 ++ if s = stop then readSortedRuns sorted last e r.2 ranges
      else
        let k := findStart sorted last s
        readSortedRuns sorted (s, k) e k ranges

def sortedWalk (sorted : Sorted α) : List (U64 × U64) → List (Bool × α)
  | [] => []
  | (s, e) :: ranges =>
    let k := findStart sorted (0, 0) s
    readSortedRuns sorted (s, k) e k ranges

/-- The calls for a body, from the sorted copy once it is made. -/
def forEachBodyInstruction (l : Listing α) (body : AddressSet) : List (Bool × α) :=
  match l.sorted with
  | some sorted => sortedWalk sorted (spans body)
  | none => mapWalk l.instructions (spans body)

def marked (first : Bool) : List α → List (Bool × α)
  | [] => []
  | insn :: insns => (first, insn) :: marked false insns

/-- The instructions of each range in turn; no answer when a lookup gives none. -/
def rangeLookups (l : Listing α) (body : AddressSet) : Option (List (Bool × α)) :=
  ((spans body).mapM fun s => (l.instructionsInRange s.1 s.2).map (marked true)).map List.flatten

def Fits (body : AddressSet) : Prop :=
  ∀ r ∈ body.ranges, r.start.offset.toNat + r.size.toNat < 2 ^ 64

section Walk

variable {l : Listing α} {m : Instructions α} {body : AddressSet}

theorem spans_ordered (h : Fits body) : ∀ s ∈ spans body, s.1 ≤ s.2 := by
  intro s hs
  obtain ⟨r, hr, rfl⟩ := mem_map.mp hs
  have hfit := h r hr
  simp only [BitVec.le_def, BitVec.toNat_add]
  rw [Nat.mod_eq_of_lt hfit]
  omega

theorem readTo_eq (stop : U64) (first : Bool) (it : Run α) : readTo stop first it =
      (marked first ((it.takeWhile fun e => e.1 < stop).map Prod.snd),
        it.dropWhile fun e => e.1 < stop) := by
  induction it generalizing first with
  | nil => rfl
  | cons e it ih =>
    rw [readTo, takeWhile_cons, dropWhile_cons]
    by_cases he : e.1 < stop
    · simp only [he, if_true, decide_true, ih]
      rfl
    · simp only [he, if_false, decide_false]
      rfl

theorem front_increasing {es : Run α} (h : Increasing es) (k : U64) :
    es.Pairwise fun x y => decide (y.1 < k) = true → decide (x.1 < k) = true :=
  front_of_lt ((pairwise_map.mp h).imp le_of_lt) fun _ => decide_eq_true_iff

def rangeCalls (m : Instructions α) (s : U64 × U64) : List (Bool × α) :=
  marked true ((m.iter.filter fun e => s.1 ≤ e.1 ∧ e.1 < s.2).map Prod.snd)

theorem readTo_range (h : m.Valid) {s e : U64} (hse : s ≤ e) :
    readTo e true (m.iter.filter fun x => s ≤ x.1) =
      (rangeCalls m (s, e), m.iter.filter fun x => e ≤ x.1) := by
  have hinc : Increasing (m.iter.filter fun x => s ≤ x.1) :=
    h.increasing.sublist (filter_sublist.map _)
  rw [readTo_eq, takeWhile_eq_filter (front_increasing hinc e),
    dropWhile_eq_filter (front_increasing hinc e), filter_filter, filter_filter]
  unfold rangeCalls
  refine Prod.ext ?_ ?_
  · simp only
    congr 2
    refine filter_congr fun x _ => ?_
    rw [Bool.eq_iff_iff]
    simp only [Bool.and_eq_true, decide_eq_true_eq]
    exact and_comm
  · simp only
    refine filter_congr fun x _ => ?_
    rw [Bool.eq_iff_iff]
    simp only [Bool.and_eq_true, Bool.not_eq_true', decide_eq_false_iff_not, not_lt,
      decide_eq_true_eq]
    exact ⟨fun hx => hx.1, fun hx => ⟨hx, hse.trans hx⟩⟩

theorem readRuns_eq (h : m.Valid) (ranges : List (U64 × U64)) {s e : U64} (hse : s ≤ e)
    (hranges : ∀ r ∈ ranges, r.1 ≤ r.2) :
    readRuns m e (m.iter.filter fun x => s ≤ x.1) ranges =
      rangeCalls m (s, e) ++ (ranges.map (rangeCalls m)).flatten := by
  induction ranges generalizing s e with
  | nil =>
    rw [readRuns, readTo_range h hse, map_nil, flatten_nil, append_nil]
  | cons r ranges ih =>
    obtain ⟨s', e'⟩ := r
    have hle := hranges _ mem_cons_self
    have hrest := fun r hr => hranges r (mem_cons_of_mem _ hr)
    rw [readRuns, readTo_range h hse, map_cons, flatten_cons]
    simp only
    congr 1
    split
    · next heq =>
      subst heq
      exact ih hle hrest
    · rw [h.rangeFrom_eq]
      exact ih hle hrest

theorem mapWalk_eq (h : m.Valid) {ranges : List (U64 × U64)} (hranges : ∀ r ∈ ranges, r.1 ≤ r.2) :
    mapWalk m ranges = (ranges.map (rangeCalls m)).flatten := by
  cases ranges with
  | nil => rfl
  | cons r ranges =>
    obtain ⟨s, e⟩ := r
    rw [mapWalk, h.rangeFrom_eq, readRuns_eq h ranges (hranges _ mem_cons_self)
      fun r hr => hranges r (mem_cons_of_mem _ hr)]
    rfl

theorem readSorted_eq (m : Instructions α) (stop : U64) (first : Bool) (i : ℕ) :
    (readSorted (.of m) stop first i).1 = (readTo stop first (m.iter.drop i)).1 ∧
      m.iter.drop (readSorted (.of m) stop first i).2 = (readTo stop first (m.iter.drop i)).2 := by
  induction hn : m.iter.length - i generalizing i first with
  | zero =>
    have hnot : ¬ (i < (Sorted.of m).addrs.length ∧ i < (Sorted.of m).insns.length) := by
      unfold Sorted.of
      simp only [length_map]
      omega
    rw [readSorted, dif_neg hnot, drop_eq_nil_of_le (by omega)]
    exact ⟨rfl, rfl⟩
  | succ n ih =>
    have hi : i < m.iter.length := by omega
    have hin : i < (Sorted.of m).addrs.length ∧ i < (Sorted.of m).insns.length := by
      unfold Sorted.of
      simp only [length_map, and_self]
      exact hi
    have haddr : (Sorted.of m).addrs[i] = m.iter[i].1 := getElem_map _
    have hinsn : (Sorted.of m).insns[i] = m.iter[i].2 := getElem_map _
    rw [readSorted, dif_pos hin, haddr, hinsn, drop_eq_getElem_cons hi, readTo]
    by_cases hlt : m.iter[i].1 < stop
    · obtain ⟨hcalls, hleft⟩ := ih false (i + 1) (by omega)
      rw [if_pos hlt, if_pos hlt]
      simp only
      exact ⟨by rw [hcalls], hleft⟩
    · rw [if_neg hlt, if_neg hlt]
      exact ⟨rfl, drop_eq_getElem_cons hi⟩

/-- The index of the first address not below one. -/
def indexAt (m : Instructions α) (s : U64) : ℕ :=
  partitionPoint (fun a => a < s) (Sorted.of m).addrs

theorem drop_indexAt (h : m.Valid) (s : U64) :
    m.iter.drop (indexAt m s) = m.iter.filter fun x => s ≤ x.1 := by
  have hfilter : (m.iter.filter fun x => s ≤ x.1) = m.iter.filter fun x => !decide (x.1 < s) :=
    filter_congr fun x _ => by
      rw [Bool.eq_iff_iff]
      simp
  rw [hfilter, ← dropWhile_eq_filter (front_increasing h.increasing s)]
  have hindex : indexAt m s = partitionPoint (fun e : U64 × α => e.1 < s) m.iter := by
    unfold indexAt partitionPoint Sorted.of
    simp only
    rw [takeWhile_map, length_map]
    rfl
  rw [hindex, drop_partitionPoint]

theorem findStart_eq (m : Instructions α) {last : U64 × ℕ} (hlast : last.2 = indexAt m last.1)
    (s : U64) : findStart (.of m) last s = indexAt m s := by
  unfold findStart
  simp only
  split
  · next hge =>
    have hsplit := takeWhile_append_dropWhile (p := fun a => decide (a < last.1))
      (l := (Sorted.of m).addrs)
    have hall : ∀ a ∈ (Sorted.of m).addrs.takeWhile (fun a => a < last.1),
        decide (a < s) = true := by
      intro a ha
      have hlt := of_decide_eq_true (mem_takeWhile_imp (p := fun a => decide (a < last.1)) ha)
      exact decide_eq_true (hlt.trans_le hge)
    rw [hlast]
    unfold indexAt
    rw [drop_partitionPoint]
    unfold partitionPoint
    conv_rhs => rw [← hsplit]
    rw [takeWhile_append_of_pos hall, length_append]
  · rw [drop_zero, zero_add]
    rfl

theorem readSortedRuns_eq (h : m.Valid) (ranges : List (U64 × U64)) {last : U64 × ℕ}
    (hlast : last.2 = indexAt m last.1) (stop : U64) (i : ℕ) :
    readSortedRuns (.of m) last stop i ranges = readRuns m stop (m.iter.drop i) ranges := by
  induction ranges generalizing last stop i with
  | nil => exact (readSorted_eq m stop true i).1
  | cons r ranges ih =>
    obtain ⟨s, e⟩ := r
    obtain ⟨hcalls, hleft⟩ := readSorted_eq m stop true i
    rw [readSortedRuns, readRuns, hcalls]
    congr 1
    split
    · rw [ih hlast, hleft]
    · have hfind := findStart_eq m hlast s
      rw [hfind, ih rfl, drop_indexAt h, h.rangeFrom_eq]

theorem sortedWalk_eq (h : m.Valid) (ranges : List (U64 × U64)) :
    sortedWalk (.of m) ranges = mapWalk m ranges := by
  cases ranges with
  | nil => rfl
  | cons r ranges =>
    obtain ⟨s, e⟩ := r
    have hzero : (0 : ℕ) = indexAt m 0 := by
      unfold indexAt partitionPoint
      rw [takeWhile_eq_nil_iff.mpr, length_nil]
      intro hlen hlt
      exact absurd (of_decide_eq_true hlt) (not_lt.mpr (zero_le_word _))
    have hfind : findStart (.of m) (0, 0) s = indexAt m s := findStart_eq m hzero s
    rw [sortedWalk, mapWalk]
    rw [hfind, readSortedRuns_eq h ranges rfl, drop_indexAt h, h.rangeFrom_eq]

theorem rangeLookups_eq (h : l.instructions.Valid) (hfit : Fits body) :
    rangeLookups l body = some (((spans body).map (rangeCalls l.instructions)).flatten) := by
  have hrange : ∀ s ∈ spans body, (l.instructionsInRange s.1 s.2).map (marked true) =
      some (rangeCalls l.instructions s) := by
    intro s hs
    unfold Listing.instructionsInRange
    rw [h.range_eq, if_neg (not_lt.mpr (spans_ordered hfit s hs))]
    rfl
  unfold rangeLookups
  have hmap : ∀ ss : List (U64 × U64), (∀ s ∈ ss, s ∈ spans body) →
      (ss.mapM fun s => (l.instructionsInRange s.1 s.2).map (marked true)) =
        some (ss.map (rangeCalls l.instructions)) := by
    intro ss hss
    induction ss with
    | nil => rfl
    | cons s ss ih =>
      rw [mapM_cons, hrange s (hss s mem_cons_self), ih fun x hx => hss x (mem_cons_of_mem _ hx)]
      rfl
  rw [hmap _ fun s hs => hs]
  rfl

/-- The walk calls what a lookup for each range would, and the sorted copy is walked as the
maps are. -/
theorem body_walk_is_range_lookups {address : α → U64} (h : Reached address l) (hfit : Fits body) :
    rangeLookups l body = some (forEachBodyInstruction l body) ∧
      sortedWalk (.of l.instructions) (spans body) = mapWalk l.instructions (spans body) := by
  have hsound := h.sound
  have hsorted := sortedWalk_eq hsound.valid (spans body)
  refine ⟨?_, hsorted⟩
  rw [rangeLookups_eq hsound.valid hfit, ← mapWalk_eq hsound.valid (spans_ordered hfit)]
  unfold forEachBodyInstruction
  cases hs : l.sorted with
  | none => rfl
  | some s =>
    rw [hsound.copied s hs]
    simp only
    rw [hsorted]

theorem body_walk_is_range_lookups_adjacent :
    let l := Listing.new.addInstruction id (5 : U64)
    let body := AddressSet.fromIter [⟨⟨1, 4⟩, 2⟩, ⟨⟨1, 6⟩, 3⟩]
    rangeLookups l body = some (forEachBodyInstruction l body) ∧
      sortedWalk (.of l.instructions) (spans body) = mapWalk l.instructions (spans body) := by
  refine body_walk_is_range_lookups (.addInstruction (5 : U64) .new : Reached id _) ?_
  intro r hr
  have hmem := ((Built.fromIter _).mem_ranges r).mp hr
  rcases mem_cons.mp hmem with rfl | hmem
  · decide
  · rw [mem_singleton.mp hmem]
    decide

end Walk

end BodyWalk
