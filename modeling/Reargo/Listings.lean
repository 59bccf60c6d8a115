import Reargo.SlotPlacement
import Reargo.SortedKeys

/-!
# Listings of instructions

Instructions by address, kept in maps of ascending address ranges that read as one map:
one map, or one for each part of the bulk add that listed them last. What a listing
answers depends on the instructions of all its maps in order, however they are cut.
-/
namespace Listings

open PcodeModel OrderedMap SortedKeys FirstEntries SlotPlacement Option
open List hiding lookup map_map map_eq_map

variable {α : Type*}

/-- The maps, and the lowest address each may hold. -/
structure Instructions (α : Type*) where
  maps : List (OrdMap U64 α)
  starts : List U64

namespace Instructions

def of (map : OrdMap U64 α) : Instructions α := ⟨[map], [0]⟩

def new : Instructions α := of .empty

def mapOf (m : Instructions α) (address : U64) : ℕ :=
  if m.starts.length = 1 then 0 else partitionPoint (fun s => s ≤ address) m.starts - 1

def get (m : Instructions α) (address : U64) : Option α :=
  (m.maps[m.mapOf address]?).bind fun t => t.get? address

def containsKey (m : Instructions α) (address : U64) : Bool :=
  (m.maps[m.mapOf address]?).any fun t => (t.get? address).isSome

def insert (m : Instructions α) (address : U64) (insn : α) : Instructions α :=
  { m with maps := m.maps.modify (m.mapOf address) fun t => t.insert address insn }

/-- `entry(address).or_insert(insn)`. -/
def orInsert (m : Instructions α) (e : U64 × α) : Instructions α :=
  { m with maps := m.maps.modify (m.mapOf e.1) fun t => FirstEntries.orInsert t e }

def len (m : Instructions α) : ℕ := (m.maps.map fun t => t.entries.length).sum

def iter (m : Instructions α) : Run α := (m.maps.map OrdMap.entries).flatten

/-- The instructions at `start..stop`; no answer (a panic) when they are in the wrong order. -/
def range (m : Instructions α) (start stop : U64) : Option (Run α) :=
  let lo := m.mapOf start
  let hi := if start < stop then m.mapOf (stop - 1) else lo
  if stop < start then none
  else some (((m.maps.drop lo).take (hi + 1 - lo)).flatMap fun t =>
    t.entries.filter fun e => start ≤ e.1 ∧ e.1 < stop)

def rangeFrom (m : Instructions α) (start : U64) : Run α :=
  (m.maps.drop (m.mapOf start)).flatMap fun t => t.entries.filter fun e => start ≤ e.1

end Instructions

/-- The instructions in order, with their addresses beside them. -/
structure Sorted (α : Type*) where
  addrs : List U64
  insns : List α

def Sorted.of (m : Instructions α) : Sorted α := ⟨m.iter.map Prod.fst, m.iter.map Prod.snd⟩

structure Listing (α : Type*) where
  instructions : Instructions α
  sorted : Option (Sorted α)

namespace Listing

def new : Listing α := ⟨.new, none⟩

def fromCacheParts (map : OrdMap U64 α) : Listing α := ⟨.of map, none⟩

def addInstruction (address : α → U64) (l : Listing α) (insn : α) : Listing α :=
  ⟨l.instructions.insert (address insn) insn, none⟩

def instructionOrInsertWith (l : Listing α) (address : U64) (decode : Option α) :
    Option α × Listing α :=
  match l.instructions.get address with
  | some insn => (some insn, l)
  | none =>
    match decode with
    | some insn => (some insn, ⟨l.instructions.insert address insn, none⟩)
    | none => (none, l)

def sortedInstructions (l : Listing α) : List α × Listing α :=
  match l.sorted with
  | some s => (s.insns, l)
  | none => ((Sorted.of l.instructions).insns, { l with sorted := some (.of l.instructions) })

def getInstruction (l : Listing α) (address : U64) : Option α := l.instructions.get address

def hasInstruction (l : Listing α) (address : U64) : Bool := l.instructions.containsKey address

def listed (l : Listing α) : List α := l.instructions.iter.map Prod.snd

def instructionAddressesInRange (l : Listing α) (start stop : U64) : Option (List U64) :=
  (l.instructions.range start stop).map fun r => r.map Prod.fst

def instructionsInRange (l : Listing α) (start stop : U64) : Option (List α) :=
  (l.instructions.range start stop).map fun r => r.map Prod.snd

def instructionCount (l : Listing α) : ℕ := l.instructions.len

end Listing

/-- Each instruction of the runs, in order, unless one is at its address. -/
def listUnlisted (map : OrdMap U64 α) (runs : List (Run α)) : OrdMap U64 α :=
  orInsertAll map runs.flatten

def partMap (part : Run α × List (Run α)) : OrdMap U64 α :=
  let n := part.1.length + (part.2.map List.length).sum
  collect ((putInOrder part.1 part.2 (List.replicate n none)).filterMap Option.join)

def splitOff (cuts : List U64) (old : Run α) : List (Run α) :=
  let s := cuts.foldr
    (fun cut (s : Run α × List (Run α)) =>
      let k := partitionPoint (fun o : U64 × α => o.1 < cut) s.1
      (s.1.take k, s.1.drop k :: s.2)) (old, [])
  s.1 :: s.2

def rebuilt (old : Run α) (cuts : List U64) (parts : List (List (Run α))) : Instructions α :=
  let parts : List (Run α × List (Run α)) :=
    if parts.isEmpty then [(old, [])]
    else (splitOff (cuts.take (parts.length - 1)) old).zip parts
  ⟨parts.map partMap, (0 :: cuts).take parts.length⟩

namespace Listing

def addUnlistedInstructionsCut (l : Listing α) (cuts : List U64) (parts : List (List (Run α))) :
    Listing α :=
  let total := (parts.flatten.map List.length).sum
  let m := l.instructions
  if total < m.len then
    if parts.length > 1 ∧ parts.length = m.maps.length ∧
        m.starts.tail = cuts.take (parts.length - 1) ∧ total ≥ 2 ^ 14 then
      ⟨⟨List.zipWith listUnlisted m.maps parts, m.starts⟩, none⟩
    else ⟨parts.flatten.flatten.foldl Instructions.orInsert m, none⟩
  else ⟨rebuilt m.iter cuts parts, none⟩

/-- Parts of ascending addresses, cut at the lowest of each. -/
def addUnlistedInstructions (l : Listing α) (parts : List (List (Run α))) : Listing α :=
  let parts := parts.filter fun p => p.any fun r => !r.isEmpty
  let cuts := (parts.drop 1).map fun p =>
    ((p.flatten.map Prod.fst).min?).getD (BitVec.allOnes 64)
  l.addUnlistedInstructionsCut cuts parts

def insertAll (l : Listing α) (items : Run α) : Listing α :=
  items.foldl (fun l e => (l.instructionOrInsertWith e.1 (some e.2)).2) l

end Listing

/-- The maps hold ascending ranges, the first from zero. -/
def Instructions.Valid (m : Instructions α) : Prop :=
  ∃ cuts, m.starts = 0 :: cuts ∧ CutAt 0 cuts (m.maps.map OrdMap.entries)

section Reads

variable {m m' : Instructions α}

theorem zero_le_word (a : U64) : (0 : U64) ≤ a := Nat.zero_le _

theorem valid_of (map : OrdMap U64 α) : (Instructions.of map).Valid :=
  ⟨[], rfl, .last fun e _ => zero_le_word e.1⟩

theorem mapOf_eq {cuts : List U64} (hs : m.starts = 0 :: cuts) (a : U64) :
    m.mapOf a = CutAt.indexOf (0 :: cuts) a := by
  unfold Instructions.mapOf
  rw [hs]
  split
  · next hlen =>
    have hnil : cuts = [] := by simpa using hlen
    subst hnil
    rw [CutAt.indexOf_cons (zero_le_word a)]
    rfl
  · rfl

theorem Instructions.Valid.increasing (h : m.Valid) : Increasing m.iter := by
  obtain ⟨cuts, -, hcut⟩ := h
  refine hcut.increasing fun es hes => ?_
  obtain ⟨t, -, rfl⟩ := mem_map.mp hes
  exact t.sorted

theorem Instructions.Valid.map_at (h : m.Valid) (a : U64) :
    ∃ t, m.maps[m.mapOf a]? = some t ∧ t.get? a = lookup a m.iter := by
  obtain ⟨cuts, hs, hcut⟩ := h
  obtain ⟨-, -, es, hes, hlook, -⟩ := hcut.modify_spec (f := id) (zero_le_word a)
    (fun es e he => .inr he) fun es k' _ => rfl
  rw [← mapOf_eq hs, getElem?_map] at hes
  obtain ⟨t, ht, rfl⟩ := map_eq_some_iff.mp hes
  exact ⟨t, ht, hlook.symm⟩

theorem Instructions.Valid.get_eq (h : m.Valid) (a : U64) : m.get a = lookup a m.iter := by
  obtain ⟨t, ht, hget⟩ := h.map_at a
  unfold get
  rw [ht, bind_some, hget]

theorem Instructions.Valid.containsKey_eq (h : m.Valid) (a : U64) :
    m.containsKey a = (lookup a m.iter).isSome := by
  obtain ⟨t, ht, hget⟩ := h.map_at a
  unfold containsKey
  rw [ht, any_some, hget]

theorem len_eq (m : Instructions α) : m.len = m.iter.length := by
  unfold Instructions.len Instructions.iter
  rw [length_flatten, List.map_map]
  rfl

theorem flatMap_filter (ts : List (OrdMap U64 α)) (p : U64 × α → Bool) :
    (ts.flatMap fun t => t.entries.filter p) = (ts.map OrdMap.entries).flatten.filter p := by
  rw [flatMap_def, filter_flatten, List.map_map]
  rfl

theorem Instructions.Valid.rangeFrom_eq (h : m.Valid) (start : U64) :
    m.rangeFrom start = m.iter.filter fun e => start ≤ e.1 := by
  obtain ⟨cuts, hs, hcut⟩ := h
  unfold rangeFrom
  rw [flatMap_filter, map_drop, mapOf_eq hs]
  exact hcut.filter_from (zero_le_word start) fun e he => of_decide_eq_true he

theorem pred_spec {start stop : U64} (h : start < stop) :
    start ≤ stop - 1 ∧ ∀ a, a < stop → a ≤ stop - 1 := by
  have hlt : start.toNat < stop.toNat := h
  have hone : (1 : U64).toNat = 1 := rfl
  have hsub : (stop - 1).toNat = stop.toNat - 1 := by
    rw [BitVec.toNat_sub_of_le (by rw [BitVec.le_def, hone]; omega), hone]
  refine ⟨?_, fun a ha => ?_⟩
  · rw [BitVec.le_def, hsub]
    omega
  · have halt : a.toNat < stop.toNat := ha
    rw [BitVec.le_def, hsub]
    omega

theorem Instructions.Valid.range_eq (h : m.Valid) (start stop : U64) :
    m.range start stop = if stop < start then none
      else some (m.iter.filter fun e => start ≤ e.1 ∧ e.1 < stop) := by
  obtain ⟨cuts, hs, hcut⟩ := h
  unfold range
  simp only
  by_cases hbad : stop < start
  · rw [if_pos hbad, if_pos hbad]
  · rw [if_neg hbad, if_neg hbad, flatMap_filter, map_take, map_drop]
    congr 1
    by_cases hlt : start < stop
    · obtain ⟨hle, hlast⟩ := pred_spec hlt
      rw [if_pos hlt, mapOf_eq hs, mapOf_eq hs]
      refine hcut.filter_between (zero_le_word start) hle fun e he => ?_
      obtain ⟨hlo, hhi⟩ := of_decide_eq_true he
      exact ⟨hlo, hlast e.1 hhi⟩
    · have hnone : ∀ (es : Run α), (es.filter fun e => start ≤ e.1 ∧ e.1 < stop) = [] := by
        intro es
        rw [filter_eq_nil_iff]
        intro e _ he
        obtain ⟨hlo, hhi⟩ := of_decide_eq_true he
        exact hlt (hlo.trans_lt hhi)
      rw [hnone, hnone]

theorem Instructions.Valid.modify (h : m.Valid) (a : U64) {f : Run α → Run α}
    {F : OrdMap U64 α → OrdMap U64 α} (hF : ∀ t, (F t).entries = f t.entries)
    (hkeys : ∀ es, ∀ e ∈ f es, e.1 = a ∨ e ∈ es)
    (hother : ∀ es k, k ≠ a → lookup k (f es) = lookup k es) :
    Instructions.Valid ⟨m.maps.modify (m.mapOf a) F, m.starts⟩ ∧
      (∀ k, k ≠ a → lookup k (Instructions.mk (m.maps.modify (m.mapOf a) F) m.starts).iter =
        lookup k m.iter) ∧
      ∃ es, lookup a m.iter = lookup a es ∧
        lookup a (Instructions.mk (m.maps.modify (m.mapOf a) F) m.starts).iter =
          lookup a (f es) := by
  obtain ⟨cuts, hs, hcut⟩ := h
  obtain ⟨hvalid, hsame, es, -, hlook, hnew⟩ :=
    hcut.modify_spec (zero_le_word a) hkeys hother
  have hmap : (m.maps.modify (m.mapOf a) F).map OrdMap.entries =
      (m.maps.map OrdMap.entries).modify (CutAt.indexOf (0 :: cuts) a) f := by
    refine ext_getElem? fun i => ?_
    rw [mapOf_eq hs, getElem?_map, getElem?_modify, getElem?_modify,
      getElem?_map]
    cases m.maps[i]? with
    | none => rfl
    | some t =>
      by_cases hi : CutAt.indexOf (0 :: cuts) a = i
      · simp only [hi, if_true, map_eq_map, map_some, hF]
      · simp only [hi, if_false, map_eq_map, map_some]
  refine ⟨⟨cuts, hs, ?_⟩, fun k hk => ?_, es, hlook, ?_⟩
  · rw [hmap]
    exact hvalid
  · unfold iter
    rw [hmap]
    exact hsame k hk
  · unfold iter
    rw [hmap]
    exact hnew

theorem mem_insertEntry {a : U64} {v : α} {es : Run α} {e : U64 × α}
    (h : e ∈ insertEntry a v es) : e.1 = a ∨ e ∈ es := by
  induction es with
  | nil =>
    rw [insertEntry, mem_singleton] at h
    exact .inl (h ▸ rfl)
  | cons x es ih =>
    rw [insertEntry] at h
    split at h
    · rcases mem_cons.mp h with rfl | h
      · exact .inl rfl
      · exact .inr h
    · split at h
      · rcases mem_cons.mp h with rfl | h
        · exact .inl rfl
        · exact .inr (mem_cons_of_mem _ h)
      · rcases mem_cons.mp h with rfl | h
        · exact .inr mem_cons_self
        · exact (ih h).imp_right (mem_cons_of_mem _)

theorem Instructions.Valid.insert (h : m.Valid) (a : U64) (v : α) :
    (m.insert a v).Valid ∧
      ∀ k, lookup k (m.insert a v).iter = if k = a then some v else lookup k m.iter := by
  obtain ⟨hvalid, hsame, es, -, hnew⟩ := h.modify a (F := fun t => t.insert a v)
    (fun t => rfl) (fun es e he => mem_insertEntry he)
    fun es k hk => by rw [lookup_insertEntry, if_neg hk]
  refine ⟨hvalid, fun k => ?_⟩
  by_cases hk : k = a
  · subst hk
    rw [if_pos rfl]
    exact hnew.trans (by rw [lookup_insertEntry, if_pos rfl])
  · rw [if_neg hk]
    exact hsame k hk

theorem Instructions.Valid.orInsert (h : m.Valid) (e : U64 × α) :
    (m.orInsert e).Valid ∧
      ∀ k, lookup k (m.orInsert e).iter = (lookup k m.iter).or (lookup k [e]) := by
  obtain ⟨hvalid, hsame, es, hold, hnew⟩ := h.modify e.1
    (f := fun es => if (lookup e.1 es).isSome then es else insertEntry e.1 e.2 es)
    (F := fun t => FirstEntries.orInsert t e)
    (fun t => by
      unfold FirstEntries.orInsert OrdMap.get?
      split <;> rfl)
    (fun es x hx => by
      split at hx
      · exact .inr hx
      · exact mem_insertEntry hx)
    fun es k hk => by
      split
      · rfl
      · rw [lookup_insertEntry, if_neg hk]
  refine ⟨hvalid, fun k => ?_⟩
  by_cases hk : k = e.1
  · subst hk
    rw [hold, lookup, if_pos rfl]
    refine hnew.trans ?_
    split
    · next hsome => rw [or_of_isSome hsome]
    · next hnone =>
      rw [lookup_insertEntry, if_pos rfl, not_isSome_iff_eq_none.mp hnone, none_or]
  · rw [lookup, if_neg hk, lookup, or_none]
    exact hsame k hk

end Reads

end Listings
