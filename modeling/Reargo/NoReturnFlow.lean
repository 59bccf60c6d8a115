import Reargo.PcodeModel
import Reargo.SharedStore

/-!
# The control flow of an instruction, kept in a word

What the search for functions that never return reads of an instruction, and the two
stores a batch keeps it in: most flows packed in a word, the others as they are.
-/
namespace NoReturnFlow

open PcodeModel LookupTable List BitVec Function

inductive Event where
  /-- `RETURN` or `BRANCHIND`: control leaves. -/
  | exit
  /-- `BRANCH` or `CBRANCH`, with its target when it is an address. -/
  | branch (uncond : Bool) (target : Option U64)
  | call (target : U64)
  deriving DecidableEq, Repr

/-- The control flow of one instruction, in op order. -/
structure Flow where
  address : U64
  length : ℕ
  trap : Bool
  events : List Event
  deriving DecidableEq, Repr

namespace Flow

/-- The address after the instruction. -/
def next (f : Flow) : U64 := f.address + BitVec.ofNat 64 f.length

end Flow

/-- Where a packed flow keeps its parts, as bit positions; three bits for each event: its kind
and whether it has a target. -/
structure Layout where
  lifted : ℕ
  length : ℕ
  trap : ℕ
  count : ℕ
  events : ℕ
  target : ℕ
  targetBits : ℕ

def kindOf : Event → ℕ × Option U64
  | .exit => (0, none)
  | .branch true target => (1, target)
  | .branch false target => (2, target)
  | .call target => (3, some target)

def relTarget (L : Layout) (address t : U64) : Option ℕ :=
  let rel := (t - address).toInt
  if -2 ^ (L.targetBits - 1) ≤ rel ∧ rel < 2 ^ (L.targetBits - 1) then
    some ((t - address).toNat % 2 ^ L.targetBits)
  else none

def packEvent (L : Layout) (address : U64) (acc : ℕ × Option ℕ) (e : Event × ℕ) :
    Option (ℕ × Option ℕ) :=
  let (kind, t) := kindOf e.1
  let v := acc.1 ||| (kind <<< (L.events + 3 * e.2))
  match t with
  | none => some (v, acc.2)
  | some t =>
    if acc.2.isSome then none
    else (relTarget L address t).map fun rel => (v ||| (1 <<< (L.events + 2 + 3 * e.2)), some rel)

/-- `0` for an instruction that cannot be lifted; nothing for a flow that does not fit. -/
def pack (L : Layout) (flow : Option Flow) : Option ℕ :=
  match flow with
  | none => some 0
  | some f =>
    if f.length > 15 ∨ f.events.length > 2 then none
    else
      let v := (1 <<< L.lifted) ||| (f.length <<< L.length) ||| (f.trap.toNat <<< L.trap) |||
        (f.events.length <<< L.count)
      (f.events.zipIdx.foldlM (packEvent L f.address) (v, none)).map fun acc =>
        acc.1 ||| (acc.2.getD 0 <<< L.target)

def readBit (v pos : ℕ) : Bool := (v >>> pos) &&& 1 ≠ 0

def unpackEvent (L : Layout) (v : ℕ) (target : U64) (i : ℕ) : Event :=
  let has := readBit v (L.events + 2 + 3 * i)
  match (v >>> (L.events + 3 * i)) &&& 3 with
  | 0 => .exit
  | 1 => .branch true (if has then some target else none)
  | 2 => .branch false (if has then some target else none)
  | _ => .call target

def unpack (L : Layout) (address : U64) (v : ℕ) : Option Flow :=
  if readBit v L.lifted = false then none
  else
    let target := address + (BitVec.ofNat L.targetBits (v >>> L.target)).signExtend 64
    some
      { address := address
        length := (v >>> L.length) &&& 0xf
        trap := readBit v L.trap
        events := (List.range ((v >>> L.count) &&& 3)).map (unpackEvent L v target) }

/-- Lifted, length, trap, count, events and the target in the upper half of 64 bits. -/
def shardLayout : Layout := ⟨15, 0, 4, 5, 7, 32, 32⟩

/-- All in 32 bits, the target in the upper 18. -/
def genericLayout : Layout := ⟨0, 1, 5, 6, 8, 14, 18⟩

def shapeOf (e : Event) : ℕ × Bool := ((kindOf e).1, (kindOf e).2.isSome)

def shapeBits (L : Layout) (v : ℕ) (e : (ℕ × Bool) × ℕ) : ℕ :=
  v ||| (e.1.1 <<< (L.events + 3 * e.2)) ||| (e.1.2.toNat <<< (L.events + 2 + 3 * e.2))

/-- The word below the target. -/
def lowBits (L : Layout) (length : ℕ) (trap : Bool) (shape : List (ℕ × Bool)) : ℕ :=
  shape.zipIdx.foldl (shapeBits L)
    ((1 <<< L.lifted) ||| (length <<< L.length) ||| (trap.toNat <<< L.trap) |||
      (shape.length <<< L.count))

/-- The parts can be read from the word. -/
def Readable (L : Layout) (v length : ℕ) (trap : Bool) (shape : List (ℕ × Bool)) : Prop :=
  readBit v L.lifted = true ∧ (v >>> L.length) &&& 0xf = length ∧ readBit v L.trap = trap ∧
    (v >>> L.count) &&& 3 = shape.length ∧
      ∀ e ∈ shape.zipIdx, (v >>> (L.events + 3 * e.2)) &&& 3 = e.1.1 ∧
        readBit v (L.events + 2 + 3 * e.2) = e.1.2

instance (L : Layout) (v length : ℕ) (trap : Bool) (shape : List (ℕ × Bool)) :
    Decidable (Readable L v length trap shape) :=
  inferInstanceAs (Decidable (_ ∧ _ ∧ _ ∧ _ ∧ ∀ e ∈ shape.zipIdx, _ ∧ _))

def shapes : List (ℕ × Bool) :=
  [(0, false), (1, false), (1, true), (2, false), (2, true), (3, true)]

/-- The shapes of up to two events. -/
def shapeLists : List (List (ℕ × Bool)) :=
  [] :: shapes.map (fun s => [s]) ++ shapes.flatMap fun s => shapes.map fun t => [s, t]

/-- A layout keeps its parts apart, below the target. -/
structure Layout.Good (L : Layout) : Prop where
  lifted : L.lifted < L.target
  length : L.length + 4 ≤ L.target
  trap : L.trap < L.target
  count : L.count + 2 ≤ L.target
  events : L.events + 6 ≤ L.target
  targetBits : 0 < L.targetBits ∧ L.targetBits ≤ 64
  low : ∀ length < 16, ∀ trap, ∀ shape ∈ shapeLists, lowBits L length trap shape < 2 ^ L.target ∧
      Readable L (lowBits L length trap shape) length trap shape

theorem shardLayout_good : shardLayout.Good := by
  constructor <;> decide +kernel

theorem genericLayout_good : genericLayout.Good := by
  constructor <;> decide +kernel

theorem mem_shapeLists {events : List Event} (h : events.length ≤ 2) :
    events.map shapeOf ∈ shapeLists := by
  have hone : ∀ e, shapeOf e ∈ shapes := by
    intro e
    rcases e with - | ⟨uncond, target⟩ | -
    · simp [shapeOf, kindOf, shapes]
    · cases uncond <;> cases target <;> simp [shapeOf, kindOf, shapes]
    · simp [shapeOf, kindOf, shapes]
  match events, h with
  | [], _ => exact mem_cons_self
  | [e], _ =>
    refine mem_cons_of_mem _ (mem_append_left _ ?_)
    exact mem_map.mpr ⟨shapeOf e, hone e, rfl⟩
  | [e, e'], _ =>
    refine mem_cons_of_mem _ (mem_append_right _ ?_)
    exact mem_flatMap.mpr ⟨shapeOf e, hone e, mem_map.mpr ⟨shapeOf e', hone e', rfl⟩⟩

/-- What lies above does not show below. -/
theorem shiftRight_or_and {low high ts p w : ℕ} (h : p + w ≤ ts) :
    ((low ||| (high <<< ts)) >>> p) &&& (2 ^ w - 1) = (low >>> p) &&& (2 ^ w - 1) := by
  refine Nat.eq_of_testBit_eq fun i => ?_
  rw [Nat.testBit_and, Nat.testBit_and, Nat.testBit_two_pow_sub_one]
  by_cases hi : i < w
  · have hlow : ¬ ts ≤ p + i := by omega
    rw [Nat.testBit_shiftRight, Nat.testBit_or, Nat.testBit_shiftLeft, Nat.testBit_shiftRight]
    simp [hlow]
  · simp [hi]

theorem readBit_or {low high ts p : ℕ} (h : p < ts) :
    readBit (low ||| (high <<< ts)) p = readBit low p := by
  have hbit : ((low ||| (high <<< ts)) >>> p) &&& 1 = (low >>> p) &&& 1 :=
    shiftRight_or_and (w := 1) h
  unfold readBit
  rw [hbit]

theorem shiftRight_or {low high ts : ℕ} (h : low < 2 ^ ts) :
    (low ||| (high <<< ts)) >>> ts = high := by
  rw [Nat.or_comm, ← Nat.shiftLeft_add_eq_or_of_lt h, Nat.shiftLeft_eq, Nat.shiftRight_eq_div_pow,
    mul_comm, Nat.mul_add_div (Nat.two_pow_pos ts), Nat.div_eq_of_lt h, add_zero]

variable {L : Layout}

theorem readable_or (hL : L.Good) {v high length : ℕ} {trap : Bool}
    {shape : List (ℕ × Bool)} (hshape : shape.length ≤ 2) (h : Readable L v length trap shape) :
    Readable L (v ||| (high <<< L.target)) length trap shape := by
  obtain ⟨h₁, h₂, h₃, h₄, h₅⟩ := h
  refine ⟨(readBit_or hL.lifted).trans h₁, (shiftRight_or_and (w := 4) hL.length).trans h₂,
    (readBit_or hL.trap).trans h₃, (shiftRight_or_and (w := 2) hL.count).trans h₄, fun e he => ?_⟩
  have hlt : e.2 < shape.length := by
    obtain ⟨s, i⟩ := e
    exact (List.getElem?_eq_some_iff.mp (mem_zipIdx_iff_getElem?.mp he)).1
  have hroom := hL.events
  exact ⟨(shiftRight_or_and (w := 2) (by omega)).trans (h₅ e he).1,
    (readBit_or (by omega)).trans (h₅ e he).2⟩

theorem relTarget_spec (hL : L.Good) {address t : U64} {rel : ℕ}
    (h : relTarget L address t = some rel) :
    rel < 2 ^ L.targetBits ∧ address + (BitVec.ofNat L.targetBits rel).signExtend 64 = t := by
  unfold relTarget at h
  simp only at h
  split at h
  · next hfits =>
    obtain rfl := Option.some.inj h
    obtain ⟨hpos, hle⟩ := hL.targetBits
    refine ⟨Nat.mod_lt _ (Nat.two_pow_pos _), ?_⟩
    have hword : BitVec.ofNat L.targetBits ((t - address).toNat % 2 ^ L.targetBits) =
        (t - address).setWidth L.targetBits := by
      apply eq_of_toNat_eq
      simp
    have hback : ((t - address).setWidth L.targetBits).signExtend 64 = t - address := by
      apply eq_of_toInt_eq
      have hdvd : (2 : ℕ) ^ L.targetBits ∣ 2 ^ 64 := Nat.pow_dvd_pow 2 hle
      have htwo : (2 : ℕ) ^ L.targetBits = 2 * 2 ^ (L.targetBits - 1) := by
        rw [← Nat.pow_succ', Nat.succ_eq_add_one, Nat.sub_add_cancel hpos]
      rw [toInt_signExtend_of_le hle, toInt_setWidth, ← Int.bmod_bmod_of_dvd hdvd,
        ← toInt_eq_toNat_bmod]
      refine Int.bmod_eq_of_le ?_ ?_
      · have hlo := hfits.1
        push_cast [htwo]
        omega
      · have hhi := hfits.2
        push_cast [htwo]
        omega
    rw [hword, hback, add_comm, sub_add_cancel]
  · cases h

theorem packEvent_spec {address : U64} {acc acc' : ℕ × Option ℕ} {e : Event × ℕ}
    (h : packEvent L address acc e = some acc') :
    acc'.1 = shapeBits L acc.1 (shapeOf e.1, e.2) ∧ (∀ rel, acc.2 = some rel → acc'.2 = some rel) ∧
      ∀ t, (kindOf e.1).2 = some t →
        ∃ rel, acc'.2 = some rel ∧ relTarget L address t = some rel := by
  unfold packEvent at h
  cases ht : (kindOf e.1).2 with
  | none =>
    simp only [ht] at h
    obtain rfl := Option.some.inj h
    refine ⟨?_, fun rel hrel => hrel, fun t ht' => by cases ht'⟩
    simp [shapeBits, shapeOf, ht]
  | some t =>
    simp only [ht] at h
    by_cases hsome : acc.2.isSome
    · rw [if_pos hsome] at h
      cases h
    · rw [if_neg hsome] at h
      obtain ⟨rel, hrel, rfl⟩ := Option.map_eq_some_iff.mp h
      have hnone : acc.2 = none := by simpa using hsome
      refine ⟨?_, fun rel' hrel' => ?_, fun t' ht' => ?_⟩
      · simp [shapeBits, shapeOf, ht]
      · rw [hnone] at hrel'
        cases hrel'
      · obtain rfl := Option.some.inj ht'
        exact ⟨rel, rfl, hrel⟩

theorem packEvents_spec {address : U64} (events : List (Event × ℕ))
    {acc acc' : ℕ × Option ℕ} (h : events.foldlM (packEvent L address) acc = some acc') :
    acc'.1 = (events.map fun e => (shapeOf e.1, e.2)).foldl (shapeBits L) acc.1 ∧
      (∀ rel, acc.2 = some rel → acc'.2 = some rel) ∧
      ∀ e ∈ events, ∀ t, (kindOf e.1).2 = some t →
        ∃ rel, acc'.2 = some rel ∧ relTarget L address t = some rel := by
  induction events generalizing acc with
  | nil =>
    obtain rfl := Option.some.inj h
    exact ⟨rfl, fun rel hrel => hrel, fun e he => absurd he not_mem_nil⟩
  | cons e events ih =>
    rw [foldlM_cons] at h
    obtain ⟨mid, hmid, hrest⟩ := Option.bind_eq_some_iff.mp h
    obtain ⟨hbits, hkeep, htarget⟩ := packEvent_spec hmid
    obtain ⟨hbits', hkeep', htarget'⟩ := ih hrest
    refine ⟨?_, fun rel hrel => hkeep' rel (hkeep rel hrel), fun e' he' t ht => ?_⟩
    · rw [hbits', hbits]
      rfl
    · rcases mem_cons.mp he' with rfl | he'
      · obtain ⟨rel, hrel, hrelTarget⟩ := htarget t ht
        exact ⟨rel, hkeep' rel hrel, hrelTarget⟩
      · exact htarget' e' he' t ht

theorem unpackEvent_eq {v i : ℕ} {target : U64} {e : Event}
    (hkind : (v >>> (L.events + 3 * i)) &&& 3 = (shapeOf e).1)
    (hhas : readBit v (L.events + 2 + 3 * i) = (shapeOf e).2)
    (htarget : ∀ t, (kindOf e).2 = some t → target = t) : unpackEvent L v target i = e := by
  unfold unpackEvent
  rw [hkind, hhas]
  rcases e with - | ⟨uncond, t⟩ | t
  · rfl
  · cases uncond <;> cases t
    · rfl
    · next t => simp [shapeOf, kindOf, htarget t rfl]
    · rfl
    · next t => simp [shapeOf, kindOf, htarget t rfl]
  · simp [shapeOf, kindOf, htarget t rfl]

theorem unpack_zero (address : U64) : unpack L address 0 = none := by
  have hbit : readBit 0 L.lifted = false := by
    unfold readBit
    rw [Nat.zero_shiftRight]
    rfl
  unfold unpack
  rw [if_pos hbit]

theorem unpack_pack (hL : L.Good) {address : U64} {flow : Option Flow} {v : ℕ}
    (haddr : ∀ f, flow = some f → f.address = address) (h : pack L flow = some v) :
    unpack L address v = flow := by
  cases flow with
  | none =>
    obtain rfl := Option.some.inj h
    exact unpack_zero address
  | some f =>
    obtain rfl := haddr f rfl
    unfold pack at h
    simp only at h
    split at h
    · cases h
    · next hfits =>
      obtain ⟨-, hcount⟩ := not_or.mp hfits
      obtain ⟨acc, hacc, rfl⟩ := Option.map_eq_some_iff.mp h
      obtain ⟨hbits, -, htarget⟩ := packEvents_spec _ hacc
      have hlow : acc.1 = lowBits L f.length f.trap (f.events.map shapeOf) := by
        rw [hbits]
        unfold lowBits
        rw [zipIdx_map, length_map]
        rfl
      have hshape : f.events.map shapeOf ∈ shapeLists := mem_shapeLists (by omega)
      obtain ⟨hlt, hread⟩ := hL.low f.length (by omega) f.trap _ hshape
      rw [← hlow] at hlt hread
      have hall : Readable L (acc.1 ||| (acc.2.getD 0 <<< L.target)) f.length f.trap
          (f.events.map shapeOf) :=
        readable_or hL (by simpa using hcount) hread
      obtain ⟨hlifted, hlen, htrap, hcnt, hevents⟩ := hall
      have htop : (acc.1 ||| (acc.2.getD 0 <<< L.target)) >>> L.target = acc.2.getD 0 :=
        shiftRight_or hlt
      unfold unpack
      rw [if_neg (by simp [hlifted]), hlen, htrap, hcnt, htop]
      have hall : (range (f.events.map shapeOf).length).map
          (unpackEvent L (acc.1 ||| (acc.2.getD 0 <<< L.target))
            (f.address + (BitVec.ofNat L.targetBits (acc.2.getD 0)).signExtend 64)) =
          f.events := by
        refine ext_getElem (by simp) fun i hi hi' => ?_
        simp only [getElem_map, getElem_range]
        have hmem : (f.events[i], i) ∈ f.events.zipIdx :=
          mem_zipIdx_iff_getElem?.mpr (getElem?_eq_getElem hi')
        have hmem' : (shapeOf f.events[i], i) ∈ (f.events.map shapeOf).zipIdx := by
          rw [zipIdx_map]
          exact mem_map.mpr ⟨_, hmem, rfl⟩
        obtain ⟨hkind, hhas⟩ := hevents _ hmem'
        refine unpackEvent_eq hkind hhas fun t ht => ?_
        obtain ⟨rel, hrel, hrelTarget⟩ := htarget _ hmem t ht
        rw [hrel]
        exact (relTarget_spec hL hrelTarget).2
      simp only [hall]

/-- The flow of each instruction that can be lifted. -/
structure CodeMap where
  flow : U64 → Option Flow
  address : ∀ a f, flow a = some f → f.address = a

def codeOf (flows : List Flow) : CodeMap where
  flow a := flows.find? fun f => f.address = a
  address a f h := by simpa using List.find?_some h

/-- The flows of x86 instructions, each lifted alone. -/
structure FlowShard where
  packed : U64 → Option ℕ
  other : U64 → Option (Option Flow)

namespace FlowShard

def empty : FlowShard := ⟨fun _ => none, fun _ => none⟩

def get (m : FlowShard) (addr : U64) : Option (Option Flow) :=
  match m.packed addr with
  | some v => some (unpack shardLayout addr v)
  | none => m.other addr

def insert (m : FlowShard) (addr : U64) (f : Option Flow) : FlowShard :=
  match pack shardLayout f with
  | some v => { m with packed := Function.update m.packed addr (some v) }
  | none => { m with other := Function.update m.other addr (some f) }

theorem get_insert (m : FlowShard) (addr : U64) (f : Option Flow)
    (haddr : ∀ g, f = some g → g.address = addr) (hnew : m.get addr = none) :
    (m.insert addr f).get addr = some f := by
  unfold insert
  cases hpack : pack shardLayout f with
  | some v => simp [get, unpack_pack shardLayout_good haddr hpack]
  | none =>
    have hpacked : m.packed addr = none := by
      cases hp : m.packed addr with
      | none => rfl
      | some v => simp [get, hp] at hnew
    simp [get, hpacked]

theorem get_insert_of_ne (m : FlowShard) (addr : U64) (f : Option Flow) (a : U64)
    (hne : a ≠ addr) : (m.insert addr f).get a = m.get a := by
  unfold insert
  cases pack shardLayout f <;> simp [get, hne]

end FlowShard

def shardTable : Table FlowShard U64 (Option Flow) where
  get := FlowShard.get
  insert := FlowShard.insert
  Fits addr f := ∀ g, f = some g → g.address = addr
  get_insert := FlowShard.get_insert
  get_insert_of_ne := FlowShard.get_insert_of_ne

theorem shard_lookups (cm : CodeMap) (addrs : List U64) :
    (shardTable.lookups cm.flow FlowShard.empty addrs).1 = addrs.map cm.flow :=
  (Table.lookups_spec cm.address (fun _ _ h => by cases h) addrs).1

/-- An IT state and its address. -/
abbrev ItKey := Option (BitVec 8 × U64)

/-- The flows of the other lifters' instructions, by the state they are lifted in, each with
the state after it. -/
structure GenericFlows where
  packed : BitVec 32 → Option ℕ
  other : U64 × ItKey → Option (Option Flow × ItKey)

namespace GenericFlows

def empty : GenericFlows := ⟨fun _ => none, fun _ => none⟩

def get (m : GenericFlows) (key : U64 × ItKey) : Option (Option Flow × ItKey) :=
  if key.2 = none ∧ key.1.toNat < 2 ^ 32 then
    match m.packed (key.1.setWidth 32) with
    | some v => some (unpack genericLayout key.1 v, none)
    | none => m.other key
  else m.other key

def insert (m : GenericFlows) (key : U64 × ItKey) (value : Option Flow × ItKey) : GenericFlows :=
  match (if key.2 = none ∧ value.2 = none ∧ key.1.toNat < 2 ^ 32 then
      pack genericLayout value.1 else none) with
  | some v => { m with packed := Function.update m.packed (key.1.setWidth 32) (some v) }
  | none => { m with other := Function.update m.other key (some value) }

theorem get_of_plain {m : GenericFlows} {key : U64 × ItKey}
    (hkey : key.2 = none ∧ key.1.toNat < 2 ^ 32) {v : ℕ}
    (hv : m.packed (key.1.setWidth 32) = some v) :
    m.get key = some (unpack genericLayout key.1 v, none) := by
  unfold get
  rw [if_pos hkey, hv]

theorem get_of_other {m : GenericFlows} {key : U64 × ItKey}
    (h : key.2 = none ∧ key.1.toNat < 2 ^ 32 → m.packed (key.1.setWidth 32) = none) :
    m.get key = m.other key := by
  unfold get
  split
  · next hkey => rw [h hkey]
  · rfl

theorem get_insert (m : GenericFlows) (key : U64 × ItKey) (value : Option Flow × ItKey)
    (haddr : ∀ g, value.1 = some g → g.address = key.1) (hnew : m.get key = none) :
    (m.insert key value).get key = some value := by
  unfold insert
  split
  · next v hpack =>
    split at hpack
    · next hplain =>
      obtain ⟨hit, hafter, haddr32⟩ := hplain
      rw [get_of_plain ⟨hit, haddr32⟩ (update_self _ _ _),
        unpack_pack genericLayout_good haddr hpack, ← hafter]
    · cases hpack
  · have hnone : key.2 = none ∧ key.1.toNat < 2 ^ 32 → m.packed (key.1.setWidth 32) = none := by
      intro hkey
      cases hp : m.packed (key.1.setWidth 32) with
      | none => rfl
      | some v =>
        rw [get_of_plain hkey hp] at hnew
        cases hnew
    rw [get_of_other (by exact hnone)]
    exact update_self _ _ _

theorem get_insert_of_ne (m : GenericFlows) (key : U64 × ItKey) (value : Option Flow × ItKey)
    (k : U64 × ItKey) (hne : k ≠ key) : (m.insert key value).get k = m.get k := by
  unfold insert
  split
  · next v hpack =>
    split at hpack
    · next hplain =>
      unfold get
      split
      · next hk =>
        have hwords : k.1.setWidth 32 ≠ key.1.setWidth 32 := by
          intro heq
          have hnat := congrArg BitVec.toNat heq
          rw [toNat_setWidth, toNat_setWidth, Nat.mod_eq_of_lt hk.2,
            Nat.mod_eq_of_lt hplain.2.2] at hnat
          exact hne (Prod.ext (eq_of_toNat_eq hnat) (hk.1.trans hplain.1.symm))
        simp only [update_of_ne hwords]
      · rfl
    · cases hpack
  · unfold get
    simp only [update_of_ne hne]

end GenericFlows

def genericTable : Table GenericFlows (U64 × ItKey) (Option Flow × ItKey) where
  get := GenericFlows.get
  insert := GenericFlows.insert
  Fits key value := ∀ g, value.1 = some g → g.address = key.1
  get_insert := GenericFlows.get_insert
  get_insert_of_ne := GenericFlows.get_insert_of_ne

theorem genericFlows_get_empty (key : U64 × ItKey) : GenericFlows.empty.get key = none := by
  unfold GenericFlows.get
  split <;> rfl

theorem generic_lookups {lift : U64 × ItKey → Option Flow × ItKey}
    (haddr : ∀ key f, (lift key).1 = some f → f.address = key.1) (keys : List (U64 × ItKey)) :
    (genericTable.lookups lift GenericFlows.empty keys).1 = keys.map lift := by
  refine (Table.lookups_spec haddr (fun key v h => ?_) keys).1
  have hempty : GenericFlows.empty.get key = some v := h
  rw [genericFlows_get_empty] at hempty
  cases hempty

end NoReturnFlow
