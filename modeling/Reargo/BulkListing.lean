import Reargo.Listings

/-!
# Listing in bulk

Instructions listed in bulk, into the maps there or into maps built again, read as the
same instructions listed one by one: of each address the one listed before, else the
first given.
-/
namespace BulkListing

open PcodeModel OrderedMap SortedKeys FirstEntries SlotPlacement Listings Option
open List hiding lookup any_eq_true lookup_append map_map

variable {α : Type*}

/-- Every address of a part is below every one of the next. -/
def AscendingParts (parts : List (List (Run α))) : Prop :=
  parts.Pairwise fun p q => ∀ a ∈ p.flatten, ∀ b ∈ q.flatten, a.1 < b.1

structure CutParts (cuts : List U64) (parts : List (List (Run α))) : Prop where
  ascending : cuts.Pairwise (· ≤ ·)
  length : parts.length ≤ cuts.length + 1
  low : ∀ k p c, parts[k + 1]? = some p → cuts[k]? = some c → ∀ e ∈ p.flatten, c ≤ e.1
  high : ∀ k p q c, parts[k]? = some p → parts[k + 1]? = some q → cuts[k]? = some c →
    ∀ e ∈ p.flatten, e.1 < c

section Parts

variable {old : Run α} {cuts : List U64} {parts : List (List (Run α))}

theorem entries_partMap (old : Run α) (runs : List (Run α)) :
    (partMap (old, runs)).entries = firsts (old ++ runs.flatten) := by
  unfold partMap
  simp only
  rw [putInOrder_eq old runs (by rw [length_replicate]), filterMap_append,
    filterMap_map]
  have hsome : (firsts (old ++ runs.flatten)).filterMap
      (Option.join ∘ fun e => some (some e)) = firsts (old ++ runs.flatten) := by
    have hid : (Option.join ∘ fun e : U64 × α => some (some e)) = some := rfl
    rw [hid, filterMap_some]
  have hnone : ∀ n, (replicate n (some (none : Slot α))).filterMap Option.join = [] := by
    intro n
    rw [filterMap_eq_nil_iff]
    intro s hs
    rw [eq_of_mem_replicate hs]
    rfl
  rw [hsome, hnone, append_nil, entries_collect (increasing_firsts _)]

theorem splitOff_spec (hold : Increasing old) (hcuts : cuts.Pairwise (· ≤ ·)) :
    (splitOff cuts old).flatten = old ∧ CutAt 0 cuts (splitOff cuts old) := by
  unfold splitOff
  simp only
  induction cuts with
  | nil => exact ⟨flatten_singleton, .last fun e _ => zero_le_word e.1⟩
  | cons cut cuts ih =>
    obtain ⟨hcut, hcuts⟩ := pairwise_cons.mp hcuts
    obtain ⟨hflat, hat⟩ := ih hcuts
    rw [foldr_cons]
    generalize cuts.foldr (fun cut (s : Run α × List (Run α)) =>
      (s.1.take (partitionPoint (fun o : U64 × α => decide (o.1 < cut)) s.1),
        s.1.drop (partitionPoint (fun o : U64 × α => decide (o.1 < cut)) s.1) :: s.2)) (old, [])
      = s at hflat hat ⊢
    have hinc : Increasing s.1 := by
      rw [← hflat, flatten_cons] at hold
      unfold Increasing at hold ⊢
      rw [map_append] at hold
      exact (pairwise_append.mp hold).1
    rw [take_partitionPoint, drop_partitionPoint]
    refine ⟨?_, hat.cut_first (zero_le_word cut) hcut
      (takeWhile_append_dropWhile (l := s.1)).symm
      (fun e he => of_decide_eq_true (mem_takeWhile_imp (p := fun o : U64 × α =>
        decide (o.1 < cut)) he))
      fun e he => le_of_mem_dropWhile hinc cut e (by convert he)⟩
    rw [flatten_cons, flatten_cons, ← append_assoc, takeWhile_append_dropWhile]
    exact hflat

theorem CutParts.cutAt {p : List (Run α)} {rest : List (List (Run α))}
    (h : CutParts cuts (p :: rest)) {lo : U64} (hlo : ∀ c ∈ cuts, lo ≤ c)
    (hp : ∀ e ∈ p.flatten, lo ≤ e.1) :
    CutAt lo (cuts.take rest.length) ((p :: rest).map List.flatten) := by
  induction rest generalizing p cuts lo with
  | nil => exact .last hp
  | cons q rest ih =>
    obtain ⟨hasc, hlen, hlow, hhigh⟩ := h
    cases cuts with
    | nil => exact absurd hlen (by simp)
    | cons cut cuts =>
      obtain ⟨hcut, hasc⟩ := pairwise_cons.mp hasc
      rw [length_cons, take_succ_cons, map_cons]
      refine .cons (hlo cut mem_cons_self)
        (fun e he => ⟨hp e he, hhigh 0 p q cut rfl rfl rfl e he⟩)
        (ih ⟨hasc, ?_, fun k p c hp hc => ?_, fun k p q c hp hq hc => ?_⟩ hcut
          (hlow 0 q cut rfl rfl))
      · simpa using hlen
      · exact hlow (k + 1) p c hp hc
      · exact hhigh (k + 1) p q c hp hq hc

/-- Both together, each address once. -/
def both (es es' : Run α) : Run α := firsts (es ++ es')

theorem mem_both (es es' : Run α) : ∀ e ∈ both es es', e ∈ es ∨ e ∈ es' := fun _ he =>
  mem_append.mp (mem_of_mem_firsts he)

theorem lookup_both (es es' : Run α) (k : U64) :
    lookup k (both es es') = (lookup k es).or (lookup k es') := by
  unfold both
  rw [lookup_firsts, lookup_append]

theorem flatten_map_flatten (parts : List (List (Run α))) :
    (parts.map List.flatten).flatten = parts.flatten.flatten := by
  rw [flatten_flatten]

theorem rebuilt_spec (hold : Increasing old) (h : CutParts cuts parts) :
    (rebuilt old cuts parts).Valid ∧ ∀ k, lookup k (rebuilt old cuts parts).iter =
      (lookup k old).or (lookup k parts.flatten.flatten) := by
  cases parts with
  | nil =>
    have hentries : (partMap (old, [])).entries = old := by
      rw [entries_partMap, flatten_nil, append_nil]
      exact firsts_eq hold fun k => rfl
    refine ⟨⟨[], rfl, .last fun e _ => zero_le_word e.1⟩, fun k => ?_⟩
    change lookup k ([(partMap (old, [])).entries]).flatten = _
    rw [hentries, flatten_singleton]
    exact (or_none).symm
  | cons p rest =>
    have hparts := h.cutAt (fun c _ => zero_le_word c) fun e _ => zero_le_word e.1
    obtain ⟨hflat, hsplit⟩ := splitOff_spec hold (h.ascending.take (i := rest.length))
    have hmaps : (rebuilt old cuts (p :: rest)).maps.map OrdMap.entries =
        List.zipWith both (splitOff (cuts.take rest.length) old)
          ((p :: rest).map List.flatten) := by
      unfold rebuilt
      simp only [isEmpty_cons, Bool.false_eq_true, if_false, length_cons,
        Nat.add_sub_cancel]
      rw [List.map_map, List.zip, map_zipWith, zipWith_map_right]
      congr 1
      funext es runs
      exact entries_partMap es runs
    have hstarts : (rebuilt old cuts (p :: rest)).starts = 0 :: cuts.take rest.length := by
      have hlen := hsplit.length_eq
      have htake : (cuts.take rest.length).length = rest.length := by
        have hle : rest.length ≤ cuts.length := by
          have := h.length
          simp only [length_cons] at this
          omega
        rw [length_take, min_eq_left hle]
      unfold rebuilt
      simp only [isEmpty_cons, Bool.false_eq_true, if_false, length_cons,
        Nat.add_sub_cancel, length_zip]
      rw [hlen, htake, min_self, take_succ_cons]
    obtain ⟨hcut, hlook⟩ := hsplit.zipWith_spec hparts mem_both lookup_both
    refine ⟨⟨_, hstarts, by rw [hmaps]; exact hcut⟩, fun k => ?_⟩
    unfold Instructions.iter
    rw [hmaps, hlook, hflat, flatten_map_flatten]

end Parts

/-- The maps are ranges, and the sorted copy, when made, is of them. -/
structure Sound (l : Listing α) : Prop where
  valid : l.instructions.Valid
  copied : ∀ s, l.sorted = some s → s = .of l.instructions

/-- The instruction at an address is the one listed before, else the first given. -/
def Adds (l l' : Listing α) (items : Run α) : Prop :=
  Sound l' ∧ ∀ k, lookup k l'.instructions.iter = (lookup k l.instructions.iter).or (lookup k items)

section Adding

variable {l : Listing α} {cuts : List U64} {parts : List (List (Run α))} {m : Instructions α}

theorem sound_mk (h : m.Valid) : Sound (Listing.mk m none) :=
  ⟨h, fun s hs => by cases hs⟩

theorem foldl_orInsert_spec (h : m.Valid) (items : Run α) :
    (items.foldl Instructions.orInsert m).Valid ∧
      ∀ k, lookup k (items.foldl Instructions.orInsert m).iter =
        (lookup k m.iter).or (lookup k items) := by
  induction items generalizing m with
  | nil => exact ⟨h, fun k => (or_none).symm⟩
  | cons e items ih =>
    obtain ⟨hvalid, hlook⟩ := h.orInsert e
    obtain ⟨hvalid', hlook'⟩ := ih hvalid
    refine ⟨hvalid', fun k => ?_⟩
    rw [foldl_cons, hlook', hlook, Option.or_assoc, ← lookup_append, singleton_append]

theorem matched_spec (h : m.Valid) (hlen : parts.length = m.maps.length)
    (hstarts : m.starts.tail = cuts.take (parts.length - 1)) (hparts : CutParts cuts parts) :
    Instructions.Valid ⟨List.zipWith listUnlisted m.maps parts, m.starts⟩ ∧
      ∀ k, lookup k (Instructions.mk (List.zipWith listUnlisted m.maps parts) m.starts).iter =
        (lookup k m.iter).or (lookup k parts.flatten.flatten) := by
  obtain ⟨own, hs, hcut⟩ := h
  cases parts with
  | nil =>
    have hpos := hcut.length_eq
    rw [length_map, ← hlen] at hpos
    cases hpos
  | cons p rest =>
    have hown : own = cuts.take rest.length := by
      rw [hs] at hstarts
      simpa using hstarts
    have hat := hparts.cutAt (fun c _ => zero_le_word c) fun e _ => zero_le_word e.1
    rw [← hown] at hat
    have hmaps : (List.zipWith listUnlisted m.maps (p :: rest)).map OrdMap.entries =
        List.zipWith both (m.maps.map OrdMap.entries) ((p :: rest).map List.flatten) := by
      rw [map_zipWith, zipWith_map]
      congr 1
      funext t runs
      exact entries_orInsertAll t runs.flatten
    obtain ⟨hvalid, hlook⟩ := hcut.zipWith_spec hat mem_both lookup_both
    refine ⟨⟨own, hs, by rw [hmaps]; exact hvalid⟩, fun k => ?_⟩
    unfold Instructions.iter
    rw [hmaps, hlook, flatten_map_flatten]

theorem adds_cut (h : Sound l) (hparts : CutParts cuts parts) :
    Adds l (l.addUnlistedInstructionsCut cuts parts) parts.flatten.flatten := by
  unfold Listing.addUnlistedInstructionsCut
  simp only
  split
  · split
    · next hmatch =>
      obtain ⟨-, hlen, hstarts, -⟩ := hmatch
      obtain ⟨hvalid, hlook⟩ := matched_spec h.valid hlen hstarts hparts
      exact ⟨sound_mk hvalid, hlook⟩
    · obtain ⟨hvalid, hlook⟩ := foldl_orInsert_spec h.valid parts.flatten.flatten
      exact ⟨sound_mk hvalid, hlook⟩
  · obtain ⟨hvalid, hlook⟩ := rebuilt_spec h.valid.increasing hparts
    exact ⟨sound_mk hvalid, hlook⟩

theorem adds_insertAll (h : Sound l) (items : Run α) : Adds l (l.insertAll items) items := by
  unfold Listing.insertAll
  induction items generalizing l with
  | nil => exact ⟨h, fun k => (or_none).symm⟩
  | cons e items ih =>
    have hone : Adds l (l.instructionOrInsertWith e.1 (some e.2)).2 [e] := by
      unfold Listing.instructionOrInsertWith
      rw [h.valid.get_eq]
      cases hget : lookup e.1 l.instructions.iter with
      | some v =>
        refine ⟨h, fun k => ?_⟩
        rw [lookup, lookup]
        by_cases hk : k = e.1
        · rw [hk, hget]
          rfl
        · rw [if_neg hk, or_none]
      | none =>
        obtain ⟨hvalid, hlook⟩ := h.valid.insert e.1 e.2
        refine ⟨sound_mk hvalid, fun k => ?_⟩
        rw [lookup, lookup]
        refine (hlook k).trans ?_
        by_cases hk : k = e.1
        · rw [if_pos hk, if_pos hk, hk, hget]
          rfl
        · rw [if_neg hk, if_neg hk, or_none]
    obtain ⟨hsound, hlook⟩ := ih hone.1
    refine ⟨hsound, fun k => ?_⟩
    rw [foldl_cons, hlook, hone.2, Option.or_assoc, ← lookup_append, singleton_append]

theorem min_getD {es : Run α} (hne : es ≠ []) :
    (∃ e ∈ es, e.1 = ((es.map Prod.fst).min?).getD (BitVec.allOnes 64)) ∧
      ∀ e ∈ es, ((es.map Prod.fst).min?).getD (BitVec.allOnes 64) ≤ e.1 := by
  have hsome : (es.map Prod.fst).min? ≠ none := by
    rw [Ne, min?_eq_none_iff, map_eq_nil_iff]
    exact hne
  obtain ⟨c, hc⟩ := ne_none_iff_exists'.mp hsome
  rw [hc, getD_some]
  obtain ⟨hmem, hle⟩ := min?_eq_some_iff.mp hc
  obtain ⟨e, he, heq⟩ := mem_map.mp hmem
  exact ⟨⟨e, he, heq⟩, fun e he => hle e.1 (mem_map_of_mem he)⟩

/-- The cuts between the parts that hold something: the lowest address of each but the first. -/
def lowest (p : List (Run α)) : U64 := ((p.flatten.map Prod.fst).min?).getD (BitVec.allOnes 64)

theorem cutParts_lowest (hasc : AscendingParts parts) (hne : ∀ p ∈ parts, p.flatten ≠ []) :
    CutParts ((parts.drop 1).map lowest) parts := by
  have hbelow : ∀ (i j : ℕ) p q, i < j → parts[i]? = some p → parts[j]? = some q →
      ∀ a ∈ p.flatten, ∀ b ∈ q.flatten, a.1 < b.1 := by
    intro i j p q hij hp hq
    obtain ⟨hi, rfl⟩ := List.getElem?_eq_some_iff.mp hp
    obtain ⟨hj, rfl⟩ := List.getElem?_eq_some_iff.mp hq
    exact pairwise_iff_getElem.mp hasc i j hi hj hij
  have hcut : ∀ (k : ℕ) c, ((parts.drop 1).map lowest)[k]? = some c →
      ∃ p, parts[k + 1]? = some p ∧ lowest p = c := by
    intro k c hc
    rw [getElem?_map, getElem?_drop, add_comm] at hc
    exact map_eq_some_iff.mp hc
  have hlow : ∀ (k : ℕ) p c, parts[k + 1]? = some p →
      ((parts.drop 1).map lowest)[k]? = some c → ∀ e ∈ p.flatten, c ≤ e.1 := by
    intro k p c hp hc
    obtain ⟨p', hp', rfl⟩ := hcut k c hc
    obtain rfl := some.inj (hp.symm.trans hp')
    exact (min_getD (hne p (mem_of_getElem? hp))).2
  have hhigh : ∀ (i k : ℕ) p c, i < k + 1 → parts[i]? = some p →
      ((parts.drop 1).map lowest)[k]? = some c → ∀ e ∈ p.flatten, e.1 < c := by
    intro i k p c hik hp hc e he
    obtain ⟨q, hq, rfl⟩ := hcut k c hc
    obtain ⟨⟨b, hb, hbeq⟩, -⟩ := min_getD (hne q (mem_of_getElem? hq))
    have hlt := hbelow i (k + 1) p q hik hp hq e he b hb
    rw [hbeq] at hlt
    exact hlt
  refine ⟨?_, ?_, hlow, fun k p q c hp _ hc => hhigh k k p c (by omega) hp hc⟩
  · rw [pairwise_iff_getElem]
    intro i j hi hj hij
    have hci := getElem?_eq_getElem hi
    have hcj := getElem?_eq_getElem hj
    obtain ⟨p, hp, hpc⟩ := hcut i _ hci
    obtain ⟨⟨b, hb, hbeq⟩, -⟩ := min_getD (hne p (mem_of_getElem? hp))
    have hlt := hhigh (i + 1) j p _ (by omega) hp hcj b hb
    rw [hbeq] at hlt
    rw [← hpc]
    exact hlt.le
  · rw [length_map, length_drop]
    omega

theorem flatten_filter_parts (parts : List (List (Run α))) :
    (parts.filter fun p => p.any fun r => !r.isEmpty).flatten.flatten = parts.flatten.flatten := by
  induction parts with
  | nil => rfl
  | cons p parts ih =>
    rw [filter_cons]
    split
    · rw [flatten_cons, flatten_cons, flatten_append, flatten_append, ih]
    · next hempty =>
      have hp : p.flatten = [] := by
        rw [flatten_eq_nil_iff]
        intro r hr
        by_contra hne
        apply hempty
        rw [List.any_eq_true]
        refine ⟨r, hr, ?_⟩
        simpa using hne
      rw [ih, flatten_cons, flatten_append, hp, nil_append]

theorem adds_parts (h : Sound l) (hasc : AscendingParts parts) :
    Adds l (l.addUnlistedInstructions parts) parts.flatten.flatten := by
  have hfilter : AscendingParts (parts.filter fun p => p.any fun r => !r.isEmpty) :=
    hasc.sublist filter_sublist
  have hne : ∀ p ∈ parts.filter fun p => p.any fun r => !r.isEmpty, p.flatten ≠ [] := by
    intro p hp hnil
    obtain ⟨r, hr, hre⟩ := List.any_eq_true.mp (mem_filter.mp hp).2
    have hrnil := flatten_eq_nil_iff.mp hnil r hr
    rw [hrnil] at hre
    cases hre
  have hadds := adds_cut h (cutParts_lowest hfilter hne)
  rw [flatten_filter_parts] at hadds
  exact hadds

end Adding

/-- The listings that adding, one by one and in bulk, and sorting lead to. -/
inductive Reached (address : α → U64) : Listing α → Prop
  | new : Reached address .new
  | fromCacheParts (map : OrdMap U64 α) : Reached address (.fromCacheParts map)
  | addInstruction {l : Listing α} (insn : α) : Reached address l →
      Reached address (l.addInstruction address insn)
  | instructionOrInsertWith {l : Listing α} (a : U64) (decode : Option α) : Reached address l →
      Reached address (l.instructionOrInsertWith a decode).2
  | sortedInstructions {l : Listing α} : Reached address l → Reached address l.sortedInstructions.2
  | addUnlisted {l : Listing α} (parts : List (List (Run α))) (hparts : AscendingParts parts) :
      Reached address l → Reached address (l.addUnlistedInstructions parts)
  | addUnlistedCut {l : Listing α} (cuts : List U64) (parts : List (List (Run α)))
      (hparts : CutParts cuts parts) : Reached address l →
      Reached address (l.addUnlistedInstructionsCut cuts parts)

/-- Two listings answer alike. -/
structure SameReads (l l' : Listing α) : Prop where
  get : ∀ a, l.getInstruction a = l'.getInstruction a
  has : ∀ a, l.hasInstruction a = l'.hasInstruction a
  listed : l.listed = l'.listed
  addresses : ∀ start stop,
    l.instructionAddressesInRange start stop = l'.instructionAddressesInRange start stop
  count : l.instructionCount = l'.instructionCount

section Reached

variable {address : α → U64} {l l' : Listing α}

theorem Reached.sound (h : Reached address l) : Sound l := by
  induction h with
  | new => exact sound_mk (valid_of _)
  | fromCacheParts map => exact sound_mk (valid_of map)
  | addInstruction insn _ ih => exact sound_mk (ih.valid.insert _ insn).1
  | @instructionOrInsertWith l a decode _ ih =>
    unfold Listing.instructionOrInsertWith
    split
    · exact ih
    · split
      · exact sound_mk (ih.valid.insert a _).1
      · exact ih
  | @sortedInstructions l _ ih =>
    unfold Listing.sortedInstructions
    split
    · exact ih
    · exact ⟨ih.valid, fun s hs => (some.inj hs).symm⟩
  | addUnlisted parts hparts _ ih => exact (adds_parts ih hparts).1
  | addUnlistedCut cuts parts hparts _ ih => exact (adds_cut ih hparts).1

theorem Sound.sameReads (h : Sound l) (h' : Sound l')
    (hlook : ∀ k, lookup k l.instructions.iter = lookup k l'.instructions.iter) :
    SameReads l l' := by
  have hiter : l.instructions.iter = l'.instructions.iter :=
    eq_of_lookup_eq h.valid.increasing h'.valid.increasing hlook
  refine ⟨fun a => ?_, fun a => ?_, ?_, fun start stop => ?_, ?_⟩
  · unfold Listing.getInstruction
    rw [h.valid.get_eq, h'.valid.get_eq, hlook]
  · unfold Listing.hasInstruction
    rw [h.valid.containsKey_eq, h'.valid.containsKey_eq, hlook]
  · unfold Listing.listed
    rw [hiter]
  · unfold Listing.instructionAddressesInRange
    rw [h.valid.range_eq, h'.valid.range_eq, hiter]
  · unfold Listing.instructionCount
    rw [len_eq, len_eq, hiter]

theorem Adds.sameReads {l₁ l₂ : Listing α} {items : Run α} (h₁ : Adds l l₁ items)
    (h₂ : Adds l l₂ items) : SameReads l₁ l₂ :=
  h₁.1.sameReads h₂.1 fun k => by rw [h₁.2, h₂.2]

/-- Instructions listed in bulk read as listed one by one; the ranks by bits and the sort fill
the same slots, and every slot is written. -/
theorem bulk_as_one_by_one (h : Reached address l) : (∀ parts, AscendingParts parts →
      SameReads (l.addUnlistedInstructions parts) (l.insertAll parts.flatten.flatten)) ∧
    (∀ cuts parts, CutParts cuts parts →
      SameReads (l.addUnlistedInstructionsCut cuts parts) (l.insertAll parts.flatten.flatten)) ∧
    ∀ (old : Run α) (runs : List (Run α)) (share : Share α),
      old.length + (runs.map List.length).sum ≤ share.length →
      putDense (bounds (old ++ runs.flatten)).1 (bounds (old ++ runs.flatten)).2
          (old ++ runs.flatten) share = putSparse (old ++ runs.flatten) share ∧
        ∀ slot ∈ putInOrder old runs share, slot.isSome = true := by
  refine ⟨fun parts hparts => ?_, fun cuts parts hparts => ?_, fun old runs share hroom => ⟨?_, ?_⟩⟩
  · exact (adds_parts h.sound hparts).sameReads (adds_insertAll h.sound _)
  · exact (adds_cut h.sound hparts).sameReads (adds_insertAll h.sound _)
  · refine putDense_eq_putSparse (bounds_spec _) ((length_firsts_le _).trans ?_)
    rw [length_append, length_flatten]
    exact hroom
  · rw [putInOrder_eq old runs hroom]
    intro slot hslot
    rcases mem_append.mp hslot with hslot | hslot
    · obtain ⟨e, -, rfl⟩ := mem_map.mp hslot
      rfl
    · rw [eq_of_mem_replicate hslot]
      rfl

theorem bulk_as_one_by_one_new :
    SameReads ((Listing.new : Listing ℕ).addUnlistedInstructions [[[(3, 0), (3, 1)]], [[(6, 2)]]])
        ((Listing.new : Listing ℕ).insertAll [(3, 0), (3, 1), (6, 2)]) ∧
      SameReads ((Listing.new : Listing ℕ).addUnlistedInstructionsCut [5, 5]
          [[[(3, 0), (3, 1)]], [], [[(9, 2)], [(6, 3), (9, 4)]]])
        ((Listing.new : Listing ℕ).insertAll [(3, 0), (3, 1), (9, 2), (6, 3), (9, 4)]) ∧
      ∀ slot ∈ putInOrder [((6 : U64), 0)] [[(3, 1)], [(6, 2)]] (List.replicate 3 none),
        slot.isSome = true := by
  have hnew : Reached (fun _ : ℕ => (0 : U64)) Listing.new := .new
  obtain ⟨ascending, cut, slots⟩ := bulk_as_one_by_one hnew
  refine ⟨ascending _ (by unfold AscendingParts; decide), cut _ _ ?_, (slots _ _ _ (by decide)).2⟩
  refine ⟨by decide, by decide, fun k p c hp hc => ?_, fun k p q c hp hq hc => ?_⟩
  · rcases k with _ | _ | k
    · cases hp
      cases hc
      decide
    · cases hp
      cases hc
      decide
    · cases hc
  · rcases k with _ | _ | k
    · cases hp
      cases hc
      decide
    · cases hp
      cases hc
      decide
    · cases hc

end Reached

end BulkListing
