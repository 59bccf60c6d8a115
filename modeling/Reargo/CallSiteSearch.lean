import Reargo.LoadedMemory

/-!
# The search for call sites

The byte scan of the executable blocks for `E8 rel32` landing on a target, run by run of the
displacement's upper half, and the index of all such sites. Addresses wrap; while the blocks lie
in one half of the address space, no sum of the search does.
-/
namespace CallSiteSearch

open PcodeModel LittleEndian LoadedMemory List BitVec Function

section Scan

variable (start target : U64) (d : List Byte)

/-- The four bytes behind a position, as a signed displacement. -/
def displacement (k : ℕ) : U64 :=
  (BitVec.ofNat 32 (leNat ((d.drop (k + 1)).take 4))).signExtend 64

/-- Where the call at a position lands. -/
def lands (k : ℕ) : U64 := start + BitVec.ofNat 64 k + 5 + displacement d k

/-- The displacement a call at a position needs. -/
def rel (i : ℕ) : U64 := target - (start + BitVec.ofNat 64 i + 5)

def fitsI32 (v : ℤ) : Bool := -2 ^ 31 ≤ v ∧ v < 2 ^ 31

/-- How many sites from a position on share the upper half of the displacement. -/
def run (i : ℕ) : ℕ := min ((rel start target i).toNat % 2 ^ 16 + 1) (d.length - 4 - i)

/-- The finder's matches, overlapping ones too: each search starts one behind the last match. -/
def matchesOf (a b : Byte) (hay : List Byte) : List ℕ :=
  (List.range hay.length).filter fun p => hay[p]? = some a ∧ hay[p + 1]? = some b

def runCalls (i : ℕ) : List U64 :=
  let rel := rel start target i
  let run := run start target d i
  if fitsI32 rel.toInt ∧ fitsI32 (rel.toInt - run + 1) then
    (((matchesOf (rel.extractLsb' 16 8) (rel.extractLsb' 24 8)
      ((d.drop (i + 3)).take (run + 1))).map (i + ·)).filter fun k =>
        k < i + run ∧ d[k]? = some 0xe8 ∧ lands start d k = target).map
          fun k => start + BitVec.ofNat 64 k
  else []

def scan (i : ℕ) : List U64 :=
  if i < d.length - 4 then runCalls start target d i ++ scan (i + run start target d i) else []
termination_by d.length - i
decreasing_by
  unfold run
  omega

end Scan

def pushAll (cap : ℕ) : List U64 → List U64 → List U64
  | out, [] => out
  | out, site :: rest =>
    if cap ≤ out.length + 1 then out ++ [site] else pushAll cap (out ++ [site]) rest

def blockCalls (target : U64) (b : MemoryBlock) : List U64 :=
  if b.flags.contains .execute then
    match b.data with
    | some d => if d.length < 5 then [] else scan b.start target d 0
    | none => []
  else []

def directCallSites (m : Memory) (target : U64) (cap : ℕ) : List U64 :=
  pushAll cap [] (m.blocks.flatMap (blockCalls target))

/-- Call sites by target, with the bounds of the executable blocks. -/
structure CallIndex where
  sites : U64 → List U64
  lo : ℕ
  hi : ℕ

def saturatingAdd (a b : ℕ) : ℕ := min (a + b) (2 ^ 64 - 1)

/-- Every call of a block with its target. -/
def blockEntries (b : MemoryBlock) : List (U64 × U64) :=
  match b.data with
  | some d =>
    if d.length < 5 then []
    else ((List.range (d.length - 4)).filter fun k => d[k]? = some 0xe8).map fun k =>
      (lands b.start d k, b.start + BitVec.ofNat 64 k)
  | none => []

/-- `sites.entry(target).or_default().push(at)`. -/
def pushSite (sites : U64 → List U64) (e : U64 × U64) : U64 → List U64 :=
  Function.update sites e.1 (sites e.1 ++ [e.2])

def CallIndex.build (m : Memory) : Option CallIndex := do
  let exec := m.blocks.filter fun b => b.flags.contains .execute
  let lo ← (exec.map fun b => b.start.toNat).min?
  let hi ← (exec.map fun b => saturatingAdd b.start.toNat ((b.data.map List.length).getD 0)).max?
  if 2 ^ 30 ≤ hi - lo then none
  else return ⟨(exec.flatMap blockEntries).foldl pushSite fun _ => [], lo, hi⟩

def CallIndex.sitesOf (index : CallIndex) (target : U64) (cap : ℕ) : Option (List U64) :=
  if target.toNat < index.lo - 2 ^ 30 ∨ saturatingAdd index.hi (2 ^ 30) ≤ target.toNat then none
  else some ((index.sites target).take cap)

def IsCall (start target : U64) (d : List Byte) (k : ℕ) : Bool :=
  d[k]? = some 0xe8 ∧ lands start d k = target

def calls (target : U64) (b : MemoryBlock) : List U64 :=
  if b.flags.contains .execute then
    let d := b.data.getD []
    ((List.range (d.length - 4)).filter (IsCall b.start target d)).map fun k =>
      b.start + BitVec.ofNat 64 k
  else []

section Runs

variable {start target : U64} {d : List Byte} {i k p : ℕ}

theorem leNat_four {b₀ b₁ b₂ b₃ : Byte} :
    leNat [b₀, b₁, b₂, b₃] = b₀.toNat + 256 * b₁.toNat + 65536 * b₂.toNat +
      16777216 * b₃.toNat := by
  simp only [leNat]
  omega

theorem rel_of_call (hcall : lands start d (i + p) = target)
    (hp : p ≤ (rel start target i).toNat % 2 ^ 16) :
    (displacement d (i + p)).toNat = (rel start target i).toNat - p := by
  have eq : displacement d (i + p) = rel start target i - BitVec.ofNat 64 p := by
    rw [rel, ← hcall, lands, ofNat_add]
    ring
  have small : p < 2 ^ 64 := by omega
  rw [eq, toNat_sub, toNat_ofNat, Nat.mod_eq_of_lt small]
  have := (rel start target i).isLt
  omega

theorem toNat_displacement (k : ℕ) : ∃ x, x = leNat ((d.drop (k + 1)).take 4) % 2 ^ 32 ∧
    (displacement d k).toNat = if x < 2 ^ 31 then x else x + (2 ^ 64 - 2 ^ 32) := by
  refine ⟨_, rfl, ?_⟩
  unfold displacement
  rw [toNat_signExtend, toNat_setWidth, toNat_ofNat, msb_eq_decide]
  simp only [toNat_ofNat, decide_eq_true_eq]
  split <;> split <;> omega

theorem call_in_run (hlen : i + p + 4 < d.length) (hcall : lands start d (i + p) = target)
    (hp : p < run start target d i) :
    (fitsI32 (rel start target i).toInt ∧
      fitsI32 ((rel start target i).toInt - run start target d i + 1)) ∧
    d[i + p + 3]? = some ((rel start target i).extractLsb' 16 8) ∧
    d[i + p + 4]? = some ((rel start target i).extractLsb' 24 8) := by
  have below : run start target d i ≤ (rel start target i).toNat % 2 ^ 16 + 1 :=
    min_le_left _ _
  have value := rel_of_call hcall (by omega)
  obtain ⟨x, hx, hdisp⟩ := toNat_displacement (d := d) (i + p)
  rw [hdisp] at value
  have four : (d.drop (i + p + 1)).take 4 =
      [d[i + p + 1], d[i + p + 2], d[i + p + 3], d[i + p + 4]] := by
    rw [drop_eq_getElem_cons (by omega), drop_eq_getElem_cons (by omega),
      drop_eq_getElem_cons (by omega), drop_eq_getElem_cons (by omega)]
    rfl
  rw [four, leNat_four] at hx
  have upper : (rel start target i).toNat / 2 ^ 16 =
      (if x < 2 ^ 31 then x else x + (2 ^ 64 - 2 ^ 32)) / 2 ^ 16 := by
    rw [value]
    omega
  refine ⟨?_, ?_, ?_⟩
  · unfold fitsI32
    rw [toInt_eq_toNat_cond, decide_eq_true_eq, decide_eq_true_eq]
    split at upper <;> split <;> omega
  · rw [List.getElem?_eq_getElem (by omega), Option.some.injEq]
    apply eq_of_toNat_eq
    rw [extractLsb'_toNat, Nat.shiftRight_eq_div_pow, upper]
    split <;> omega
  · rw [List.getElem?_eq_getElem hlen, Option.some.injEq]
    apply eq_of_toNat_eq
    rw [extractLsb'_toNat, Nat.shiftRight_eq_div_pow]
    split at upper <;> omega

theorem run_le (hi : i < d.length - 4) : i + run start target d i ≤ d.length - 4 := by
  have := min_le_right ((rel start target i).toNat % 2 ^ 16 + 1) (d.length - 4 - i)
  unfold run
  omega

theorem runCalls_eq (hi : i < d.length - 4) : runCalls start target d i =
    ((List.range' i (run start target d i)).filter (IsCall start target d)).map
      fun k => start + BitVec.ofNat 64 k := by
  have inside : i + run start target d i ≤ d.length - 4 := run_le hi
  have shift : range' i (run start target d i) =
      (range (run start target d i)).map (i + ·) := by
    rw [range_eq_range', map_add_range', add_zero]
  unfold runCalls
  dsimp only
  by_cases reach : fitsI32 (rel start target i).toInt ∧
      fitsI32 ((rel start target i).toInt - run start target d i + 1)
  · have hay (q : ℕ) (hq : q < run start target d i + 1) :
        ((d.drop (i + 3)).take (run start target d i + 1))[q]? = d[i + q + 3]? := by
      rw [getElem?_take_of_lt hq, getElem?_drop, add_right_comm]
    have length : ((d.drop (i + 3)).take (run start target d i + 1)).length =
        run start target d i + 1 := by
      rw [length_take, length_drop]
      omega
    rw [if_pos reach, shift, matchesOf, length, filter_map, filter_map,
      filter_filter, range_succ, filter_append]
    have last : [run start target d i].filter (fun q =>
        (((fun k => decide (k < i + run start target d i ∧ d[k]? = some 0xe8 ∧
          lands start d k = target)) ∘ (i + ·)) q) && decide
        (((d.drop (i + 3)).take (run start target d i + 1))[q]? =
            some ((rel start target i).extractLsb' 16 8) ∧
          ((d.drop (i + 3)).take (run start target d i + 1))[q + 1]? =
            some ((rel start target i).extractLsb' 24 8))) = [] := by
      simp
    rw [last, append_nil]
    congr 2
    apply filter_congr
    intro q hq
    have hq := mem_range.mp hq
    rw [hay q (by omega), hay (q + 1) (by omega), comp_apply, comp_apply, IsCall,
      Bool.eq_iff_iff, Bool.and_eq_true, decide_eq_true_eq, decide_eq_true_eq, decide_eq_true_eq]
    constructor
    · rintro ⟨⟨-, byte, landed⟩, -⟩
      exact ⟨byte, landed⟩
    · rintro ⟨byte, landed⟩
      exact ⟨⟨by omega, byte, landed⟩, (call_in_run (by omega) landed hq).2⟩
  · rw [if_neg reach, shift, filter_map]
    have none : (range (run start target d i)).filter
        (IsCall start target d ∘ (i + ·)) = [] := by
      refine filter_eq_nil_iff.mpr fun q hq call => reach ?_
      rw [comp_apply, IsCall, decide_eq_true_eq] at call
      have hq := mem_range.mp hq
      exact (call_in_run (by omega) call.2 hq).1
    rw [none]
    rfl

theorem scan_eq (i : ℕ) : scan start target d i =
    ((List.range' i (d.length - 4 - i)).filter (IsCall start target d)).map
      fun k => start + BitVec.ofNat 64 k := by
  induction i using scan.induct start target d with
  | case1 i hi ih =>
    have inside : i + run start target d i ≤ d.length - 4 := run_le hi
    have split : range' i (d.length - 4 - i) = range' i (run start target d i) ++
        range' (i + run start target d i) (d.length - 4 - (i + run start target d i)) := by
      rw [range'_append_1]
      congr 1
      omega
    rw [scan, if_pos hi, runCalls_eq hi, ih, split, filter_append, map_append]
  | case2 i hi =>
    have done : d.length - 4 - i = 0 := by omega
    rw [scan, if_neg hi, done]
    rfl

end Runs

theorem blockCalls_eq (target : U64) (b : MemoryBlock) : blockCalls target b = calls target b := by
  unfold blockCalls calls
  split
  · cases b.data with
    | none => rfl
    | some d =>
      dsimp only [Option.getD_some]
      split
      · rename_i short
        have done : d.length - 4 = 0 := by omega
        rw [done]
        rfl
      · rw [scan_eq, Nat.sub_zero, range_eq_range']
  · rfl

theorem pushAll_eq (cap : ℕ) (out sites : List U64) (h : out.length < cap) :
    pushAll cap out sites = (out ++ sites).take cap := by
  induction sites generalizing out with
  | nil => rw [pushAll, append_nil, take_of_length_le h.le]
  | cons site rest ih =>
    have longer : (out ++ [site]).length = out.length + 1 := length_append
    have split : out ++ site :: rest = (out ++ [site]) ++ rest := append_cons _ _ _
    rw [pushAll, split]
    split
    · rename_i full
      rw [take_append_of_le_length (by omega), take_of_length_le (by omega)]
    · rename_i room
      exact ih (out ++ [site]) (by omega)

theorem foldl_pushSite (es : List (U64 × U64)) (sites : U64 → List U64) (target : U64) :
    es.foldl pushSite sites target =
      sites target ++ (es.filter fun e => e.1 = target).map Prod.snd := by
  induction es generalizing sites with
  | nil => exact (append_nil _).symm
  | cons e es ih =>
    rw [foldl_cons, ih, pushSite, filter_cons]
    by_cases h : e.1 = target
    · subst h
      rw [update_self, if_pos (decide_eq_true rfl), map_cons, List.append_assoc]
      rfl
    · rw [update_of_ne (Ne.symm h), if_neg (by simpa using h)]

theorem blockEntries_eq (target : U64) (b : MemoryBlock) (h : b.flags.contains .execute = true) :
    ((blockEntries b).filter fun e => e.1 = target).map Prod.snd = calls target b := by
  unfold blockEntries calls
  rw [if_pos h]
  cases b.data with
  | none => rfl
  | some d =>
    dsimp only [Option.getD_some]
    split
    · rename_i short
      have done : d.length - 4 = 0 := by omega
      rw [done]
      rfl
    · rw [filter_map, map_map, filter_filter]
      congr 1
      apply filter_congr
      intro k _
      rw [IsCall, comp_apply, Bool.eq_iff_iff, Bool.and_eq_true, decide_eq_true_eq,
        decide_eq_true_eq, decide_eq_true_eq]
      exact and_comm

theorem build_sites {m : Memory} {index : CallIndex} (h : CallIndex.build m = some index)
    (target : U64) : index.sites target = m.blocks.flatMap (calls target) := by
  unfold CallIndex.build at h
  obtain ⟨lo, -, h⟩ := Option.bind_eq_some_iff.mp h
  obtain ⟨hi, -, h⟩ := Option.bind_eq_some_iff.mp h
  split at h
  · cases h
  · cases h
    dsimp only
    rw [foldl_pushSite, nil_append, filter_flatMap, map_flatMap]
    induction m.blocks with
    | nil => rfl
    | cons b blocks ih =>
      rw [filter_cons, flatMap_cons]
      split
      · rename_i exec
        rw [flatMap_cons, ih, blockEntries_eq target b exec]
      · rename_i other
        have none : calls target b = [] := if_neg other
        rw [ih, none, nil_append]

/-- The scan finds the first calls, block by block in address order, and so does the index. -/
theorem search_finds_calls (m : Memory) (target : U64) (cap : ℕ) (hcap : 1 ≤ cap) :
    directCallSites m target cap = (m.blocks.flatMap (calls target)).take cap ∧
    ∀ index, CallIndex.build m = some index → ∀ sites, index.sitesOf target cap = some sites →
      sites = directCallSites m target cap := by
  have direct : directCallSites m target cap = (m.blocks.flatMap (calls target)).take cap := by
    have same : blockCalls target = calls target := funext (blockCalls_eq target)
    rw [directCallSites, pushAll_eq cap [] _ hcap, nil_append, same]
  refine ⟨direct, fun index built sites found => ?_⟩
  unfold CallIndex.sitesOf at found
  split at found
  · cases found
  · cases found
    rw [direct, build_sites built]

/-- Two calls of one target with another call between them. -/
def threeCalls : Memory where
  blocks := [⟨0x1000, 16, 5, some [0xe8, 0x0b, 0, 0, 0, 0xe8, 0, 0, 0, 0, 0xe8, 1, 0, 0, 0, 0x90]⟩]
  endian := .little

theorem search_finds_calls_two : directCallSites threeCalls 0x1010 8 = [0x1000, 0x100a] ∧
    ∃ index, CallIndex.build threeCalls = some index ∧
      index.sitesOf 0x1010 8 = some [0x1000, 0x100a] := by
  obtain ⟨direct, indexed⟩ := search_finds_calls threeCalls 0x1010 8 (by decide)
  have two : directCallSites threeCalls 0x1010 8 = [0x1000, 0x100a] := direct.trans (by decide)
  have answers : ((CallIndex.build threeCalls).bind fun index => index.sitesOf 0x1010 8).isSome := by
    decide +kernel
  obtain ⟨sites, found⟩ := Option.isSome_iff_exists.mp answers
  obtain ⟨index, built, found⟩ := Option.bind_eq_some_iff.mp found
  exact ⟨two, index, built, found.trans (congrArg some ((indexed index built sites found).trans two))⟩

end CallSiteSearch
