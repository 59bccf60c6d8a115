import Reargo.OperationLocality

/-!
# Folding flag copies

`t = a == 0; …; ZF = t` becomes `ZF = a == 0`, with the later readers of `t` reading the
flag. A fold moves the write of the flag up to the operation that computes it, so between
the two places a run of the folded list holds in the flag what the other holds in the
temporary; behind the copy the lists differ in the temporary alone.
-/
namespace FlagFolding

open PcodeModel EmulatorMemory EmulatorOps OperationLocality PageAccess LittleEndian List
open Option (some.inj some.injEq)

def isFlag (v : VarnodeData) : Bool :=
  v.space = .register ∧ 0x200 ≤ v.offset.toNat ∧ v.offset.toNat < 0x210 ∧ v.size = 1

/-- The last position at which a predicate holds. -/
def rposition {α : Type} (p : α → Bool) : List α → Option ℕ
  | [] => none
  | a :: as =>
    match rposition p as with
    | some k => some (k + 1)
    | none => if p a then some 0 else none

def rename (t f : VarnodeData) (op : PcodeOp) : PcodeOp :=
  { op with inputs := op.inputs.map fun inp => if inp = t then f else inp }

def moveFlag (ops : List PcodeOp) (d i : ℕ) (f t : VarnodeData) : List PcodeOp :=
  let ops := (ops.modify d fun o => { o with output := some f }).eraseIdx i
  ops.take (d + 1) ++ (ops.drop (d + 1)).map (rename t f)

def foldAt (ops : List PcodeOp) (i : ℕ) : Option (List PcodeOp) :=
  match ops[i]? with
  | some ⟨opcode, some f, [t]⟩ =>
    if opcode ≠ .copy ∨ !isFlag f ∨ t.space ≠ .unique then none
    else
      match rposition (fun o => o.output = some t) (ops.take i) with
      | none => none
      | some d =>
        let reads_flag := ((ops.take i).drop (d + 1)).any fun o => f ∈ o.inputs ∨ o.output = some f
        let flag_rewritten := (ops.drop (i + 1)).any fun o => o.output = some f ∨ o.output = some t
        if reads_flag || flag_rewritten then none else some (moveFlag ops d i f t)
  | _ => none

structure Fold (ops ops' : List PcodeOp) (i : ℕ) where
  pre : List PcodeOp
  o : PcodeOp
  mid : List PcodeOp
  post : List PcodeOp
  f : VarnodeData
  t : VarnodeData
  ops_eq : ops = pre ++ o :: (mid ++ ⟨.copy, some f, [t]⟩ :: post)
  folded_eq : ops' = pre ++ { o with output := some f } :: (mid ++ post).map (rename t f)
  index : i = (pre ++ o :: mid).length
  flag : isFlag f
  temp : t.space = .unique
  defines : o.output = some t
  mid_clear : ∀ m ∈ mid, m.output ≠ some t ∧ m.output ≠ some f ∧ f ∉ m.inputs
  post_clear : ∀ m ∈ post, m.output ≠ some t ∧ m.output ≠ some f

theorem rposition_eq_some {α : Type} {p : α → Bool} {l : List α} {d : ℕ}
    (h : rposition p l = some d) :
    ∃ pre a post, l = pre ++ a :: post ∧ d = pre.length ∧ p a ∧ ∀ b ∈ post, p b = false := by
  induction l generalizing d with
  | nil => simp [rposition] at h
  | cons x xs ih =>
    cases hx : rposition p xs with
    | some k =>
      obtain ⟨pre, a, post, rfl, rfl, ha, hpost⟩ := ih hx
      simp only [rposition, hx, some.injEq] at h
      exact ⟨x :: pre, a, post, rfl, by simpa using h.symm, ha, hpost⟩
    | none =>
      simp only [rposition, hx, Option.ite_none_right_eq_some, some.injEq] at h
      obtain ⟨hp, rfl⟩ := h
      exact ⟨[], x, xs, rfl, rfl, hp, rposition_eq_none hx⟩
where
  rposition_eq_none {α : Type} {p : α → Bool} {l : List α} (h : rposition p l = none) :
      ∀ b ∈ l, p b = false := by
    induction l with
    | nil => simp
    | cons x xs ih =>
      cases hx : rposition p xs with
      | some k => simp [rposition, hx] at h
      | none =>
        simp only [rposition, hx, ite_eq_right_iff, reduceCtorEq, imp_false, Bool.not_eq_true] at h
        simpa [h] using ih hx

theorem moveFlag_eq (pre mid post : List PcodeOp) (o c : PcodeOp) (f t : VarnodeData) :
    moveFlag (pre ++ o :: (mid ++ c :: post)) pre.length (pre ++ o :: mid).length f t =
      pre ++ { o with output := some f } :: (mid ++ post).map (rename t f) := by
  have hmodify : (pre ++ o :: (mid ++ c :: post)).modify pre.length
      (fun o => { o with output := some f }) =
        (pre ++ { o with output := some f } :: mid) ++ c :: post := by
    induction pre with
    | nil => simp
    | cons p ps ih => simpa using ih
  have herase : ((pre ++ { o with output := some f } :: mid) ++ c :: post).eraseIdx
      (pre ++ o :: mid).length = (pre ++ [{ o with output := some f }]) ++ (mid ++ post) := by
    rw [eraseIdx_append_of_length_le (by simp)]
    simp
  have hlen : (pre ++ [{ o with output := some f }]).length = pre.length + 1 := by simp
  simp only [moveFlag, hmodify, herase]
  rw [← hlen, take_left, drop_left]
  simp

variable {ops : List PcodeOp}

theorem foldAt_eq_some {ops' : List PcodeOp} {i : ℕ} (h : foldAt ops i = some ops') :
    Nonempty (Fold ops ops' i) := by
  unfold foldAt at h
  split at h
  case h_2 => cases h
  case h_1 opcode f t hi =>
    split at h
    · cases h
    next hcopy =>
    simp only [ne_eq, Bool.not_eq_true', not_or, not_not, Bool.not_eq_false] at hcopy
    obtain ⟨rfl, hflag, htemp⟩ := hcopy
    split at h
    · cases h
    next d hd =>
    obtain ⟨pre, o, mid, htake, rfl, ho, hmid⟩ := rposition_eq_some hd
    obtain ⟨hlt, hget⟩ := List.getElem?_eq_some_iff.mp hi
    have hops : ops = pre ++ o :: (mid ++ ⟨.copy, some f, [t]⟩ :: ops.drop (i + 1)) := by
      conv_lhs => rw [← take_append_drop i ops, htake, drop_eq_getElem_cons hlt, hget]
      simp
    have hindex : i = (pre ++ o :: mid).length := by
      rw [← htake, length_take, Nat.min_eq_left hlt.le]
    simp only [Bool.or_eq_true, any_eq_true, decide_eq_true_eq, htake] at h
    split at h
    · cases h
    next hclear =>
    have hdrop : (pre ++ o :: mid).drop (pre.length + 1) = mid := by
      rw [← drop_drop, drop_left]
      rfl
    simp only [hdrop, not_or, not_exists, not_and] at hclear
    have hmove := moveFlag_eq pre mid (ops.drop (i + 1)) o ⟨.copy, some f, [t]⟩ f t
    rw [← hops, ← hindex] at hmove
    rw [some.injEq, hmove] at h
    exact ⟨{
      pre, o, mid, f, t
      post := ops.drop (i + 1)
      ops_eq := hops
      folded_eq := h.symm
      index := hindex
      flag := hflag
      temp := htemp
      defines := by simpa using ho
      mid_clear := fun m hm => ⟨by simpa using hmid m hm, (hclear.1 m hm).2, (hclear.1 m hm).1⟩
      post_clear := fun m hm => ⟨(hclear.2 m hm).2, (hclear.2 m hm).1⟩ }⟩

theorem Fold.length {ops' : List PcodeOp} {i : ℕ} (F : Fold ops ops' i) :
    i < ops.length ∧ ops.length = ops'.length + 1 := by
  have hops := congrArg List.length F.ops_eq
  have hfolded := congrArg List.length F.folded_eq
  have hindex := F.index
  simp only [length_append, length_cons, length_map] at hops hfolded hindex
  omega

/-- The loop of the pass from `i` on. -/
def foldFrom (ops : List PcodeOp) (i : ℕ) : List PcodeOp :=
  if _hi : i < ops.length then
    match hfold : foldAt ops i with
    | some ops' => foldFrom ops' i
    | none => foldFrom ops (i + 1)
  else ops
termination_by ops.length - i
decreasing_by
  · obtain ⟨F⟩ := foldAt_eq_some hfold
    have := F.length
    omega
  · omega

def foldFlagCopies (ops : List PcodeOp) : List PcodeOp := foldFrom ops 0

/-- `Emulator::execute_ops`: until the first operation that fails. -/
def executeOps (un : Uninterpreted) (em : Emulator) :
    List PcodeOp → Emulator × Except EmulatorError Unit
  | [] => (em, .ok ())
  | op :: ops =>
    match em.executeOp un op with
    | (em', .ok ()) => executeOps un em' ops
    | (em', .error e) => (em', .error e)

structure StoreSeen where
  space : U64
  address : U64
  size : ℕ
  value : U128
  deriving DecidableEq

def storeSeen (s : EmulatorState) (op : PcodeOp) : Option StoreSeen :=
  if op.opcode = .store then do
    let space ← op.input 0
    let address ← op.input 1
    let value ← op.input 2
    return ⟨s.readVarnode space, s.readVarnode address, value.size, s.readWide value⟩
  else none

/-- What the stores of a run see, in their order. -/
def storesSeen (un : Uninterpreted) (em : Emulator) : List PcodeOp → List StoreSeen
  | [] => []
  | op :: ops =>
    (storeSeen em.state op).toList ++ match em.executeOp un op with
      | (em', .ok ()) => storesSeen un em' ops
      | (_, .error _) => []

structure Outline where
  stores : List StoreSeen
  state : EmulatorState
  complete : Bool

def outline (un : Uninterpreted) (s : EmulatorState) : List PcodeOp → Outline
  | [] => ⟨[], s, true⟩
  | op :: ops =>
    match execute un s op with
    | .ok t =>
      let r := outline un t ops
      ⟨(storeSeen s op).toList ++ r.stores, r.state, r.complete⟩
    | .error _ => ⟨(storeSeen s op).toList, s, false⟩

theorem outline_eq (un : Uninterpreted) (em : Emulator) (ops : List PcodeOp) :
    outline un em.state ops = ⟨storesSeen un em ops, (executeOps un em ops).1.state,
      (executeOps un em ops).2.isOk⟩ := by
  induction ops generalizing em with
  | nil => rfl
  | cons op ops ih =>
    simp only [outline, storesSeen, executeOps, Emulator.executeOp]
    cases execute un em.state op with
    | error e => simp [Except.isOk, Except.toBool]
    | ok t => simp only [ih ⟨t, em.stepCount + 1⟩]

def FlagCell (sp : SpaceId) (a : U64) : Prop :=
  sp = .register ∧ 0x200 ≤ a.toNat ∧ a.toNat < 0x210

/-- Nothing but temporaries differs, and flags where the runs are not complete. -/
structure Preserved (r r' : Outline) : Prop where
  stores : r'.stores = r.stores
  complete : r'.complete = r.complete
  bytes : ∀ sp a, sp ≠ .unique → (r.complete ∨ ¬ FlagCell sp a) →
    r'.state.bytes sp a = r.state.bytes sp a

theorem Preserved.refl (r : Outline) : Preserved r r := ⟨rfl, rfl, fun _ _ _ _ => rfl⟩

theorem Preserved.trans {r₁ r₂ r₃ : Outline} (h : Preserved r₁ r₂) (h' : Preserved r₂ r₃) :
    Preserved r₁ r₃ :=
  ⟨h'.stores.trans h.stores, h'.complete.trans h.complete, fun sp a hsp hend =>
    (h'.bytes sp a hsp (h.complete ▸ hend)).trans (h.bytes sp a hsp hend)⟩

/-- One operation of each list: the stores see the same, and the states stay related. -/
def StepsTo (un : Uninterpreted) (R R' : EmulatorState → EmulatorState → Prop)
    (op op' : PcodeOp) : Prop :=
  ∀ s s', R s s' → storeSeen s' op' = storeSeen s op ∧
    ((∃ e e', execute un s op = .error e ∧ execute un s' op' = .error e') ∨
      ∃ u u', execute un s op = .ok u ∧ execute un s' op' = .ok u' ∧ R' u u')

/-- States in which a pair of runs may stop. -/
def Stoppable (R : EmulatorState → EmulatorState → Prop) : Prop :=
  ∀ s s', R s s' → ∀ sp a, sp ≠ .unique → ¬ FlagCell sp a → s'.bytes sp a = s.bytes sp a

section Simulation

variable {un : Uninterpreted} {R R' : EmulatorState → EmulatorState → Prop}

theorem outline_step {op op' : PcodeOp} {rest rest' : List PcodeOp}
    (hstep : StepsTo un R R' op op') (hstop : Stoppable R)
    (hrest : ∀ s s', R' s s' → Preserved (outline un s rest) (outline un s' rest'))
    (s s' : EmulatorState) (h : R s s') :
    Preserved (outline un s (op :: rest)) (outline un s' (op' :: rest')) := by
  obtain ⟨hseen, ⟨e, e', hx, hx'⟩ | ⟨u, u', hx, hx', hu⟩⟩ := hstep s s' h
  · simp only [outline, hx, hx', hseen]
    exact ⟨rfl, rfl, fun sp a hsp hend => hstop s s' h sp a hsp (hend.resolve_left (by simp))⟩
  · have hr := hrest u u' hu
    simp only [outline, hx, hx', hseen]
    exact ⟨by simp only [hr.stores], hr.complete, hr.bytes⟩

theorem outline_steps {ops' rest rest' : List PcodeOp}
    (hsteps : List.Forall₂ (StepsTo un R R) ops ops') (hstop : Stoppable R)
    (hrest : ∀ s s', R s s' → Preserved (outline un s rest) (outline un s' rest')) :
    ∀ s s', R s s' → Preserved (outline un s (ops ++ rest)) (outline un s' (ops' ++ rest')) := by
  induction hsteps with
  | nil => exact hrest
  | cons hstep _ ih => exact outline_step hstep hstop ih

end Simulation

/-- Two varnodes without a common byte. -/
def Apart (v w : VarnodeData) : Prop :=
  v.space ≠ w.space ∨ (v.size ≤ (w.offset - v.offset).toNat ∧ w.size ≤ (v.offset - w.offset).toNat)

instance instDecidableApart (v w : VarnodeData) : Decidable (Apart v w) :=
  inferInstanceAs (Decidable (_ ∨ _))

variable {v : VarnodeData} {sp : SpaceId} {a : U64}

theorem Apart.not_covers {w : VarnodeData} (h : Apart v w) (hv : Covers v sp a) : ¬ Covers w sp a := by
  rintro ⟨rfl, hlt⟩
  obtain ⟨hsp, hlt'⟩ := hv
  rcases h with h | ⟨hvw, hwv⟩
  · exact h hsp.symm
  · simp only [BitVec.toNat_sub] at *
    have := a.isLt
    have := v.offset.isLt
    have := w.offset.isLt
    omega

def varnodes (ops : List PcodeOp) : List VarnodeData :=
  ops.flatMap fun op => op.output.toList ++ op.inputs

theorem output_mem_varnodes {op : PcodeOp} (hop : op ∈ ops)
    (hv : op.output = some v) : v ∈ varnodes ops :=
  mem_flatMap.mpr ⟨op, hop, by simp [hv]⟩

theorem input_mem_varnodes {op : PcodeOp} (hop : op ∈ ops) (hv : v ∈ op.inputs) : v ∈ varnodes ops :=
  mem_flatMap.mpr ⟨op, hop, by simp [hv]⟩

def Whole (ops : List PcodeOp) : Prop :=
  ∀ v ∈ varnodes ops, ∀ w ∈ varnodes ops, (w.space = .unique ∨ isFlag w) → v = w ∨ Apart v w

instance instDecidableWhole (ops : List PcodeOp) : Decidable (Whole ops) :=
  inferInstanceAs (Decidable (∀ v ∈ varnodes ops, ∀ w ∈ varnodes ops, _))

def shape (vn : VarnodeData) : ℕ × Option U64 :=
  (vn.size, if vn.space = .const then some vn.offset else none)

/-- The operation writes its output whenever it runs to its end. -/
structure Defines (g : Intrinsics) (op : PcodeOp) : Prop where
  store : op.opcode ≠ .store
  cBranch : op.opcode ≠ .cBranch
  intrinsic : isIntrinsic op.opcode → ∀ operands : List Operand,
    operands.map (fun x => (x.size, x.const)) = op.inputs.map shape →
      g op.opcode (op.output.map VarnodeData.size) operands ≠ .ok .left

/-- A list whose folds are sound. -/
structure Foldable (g : Intrinsics) (ops : List PcodeOp) : Prop where
  whole : Whole ops
  copies : ∀ op ∈ ops, op.opcode = .copy → ∀ f t, op.output = some f → op.inputs = [t] →
    t.size = f.size
  stores : ∀ op ∈ ops, op.opcode = .store → ∀ v, op.input 0 = some v →
    v.space = SpaceId.const ∧ v.offset.toNat % 2 ^ 32 ≠ SpaceId.register ∧
      v.offset.toNat % 2 ^ 32 ≠ SpaceId.unique
  defines : ∀ op ∈ ops, ∀ t, op.output = some t → t.space = SpaceId.unique → Defines g op

structure Linked (X : SpaceId → U64 → Prop) (f t : VarnodeData) (s s' : EmulatorState) : Prop where
  agree : ∀ sp a, ¬ X sp a → s'.bytes sp a = s.bytes sp a
  link : s'.bytes f.space f.offset = s.bytes t.space t.offset

/-- A one-byte flag and the one-byte temporary copied to it. -/
structure FlagTemp (f t : VarnodeData) : Prop where
  flag : f.space = .register
  temp : t.space = .unique
  flagSize : f.size = 1
  tempSize : t.size = 1
  low : 0x200 ≤ f.offset.toNat
  high : f.offset.toNat < 0x210

theorem isFlag_iff {f : VarnodeData} : isFlag f ↔ f.space = .register ∧
    0x200 ≤ f.offset.toNat ∧ f.offset.toNat < 0x210 ∧ f.size = 1 := by
  simp [isFlag]

theorem covers_one (h : v.size = 1) : Covers v sp a ↔ sp = v.space ∧ a = v.offset := by
  rw [Covers, h, Nat.lt_one_iff]
  refine and_congr_right fun _ => ⟨fun h0 => ?_, fun ha => by simp [ha]⟩
  exact sub_eq_zero.mp (BitVec.eq_of_toNat_eq (by simpa using h0))

theorem readWide_one {s : EmulatorState} (hc : v.space ≠ .const)
    (h : v.size = 1) : s.readWide v = (s.bytes v.space v.offset).setWidth 128 := by
  rw [EmulatorState.readWide, readWide_eq hc, h]
  apply BitVec.eq_of_toNat_eq
  simp [loadBytes, leNat, EmulatorState.bytes]

section Linked

variable {X : SpaceId → U64 → Prop} {f t : VarnodeData} {s s' : EmulatorState} {op : PcodeOp}

theorem FlagTemp.cells (h : FlagTemp f t) : Covers f f.space f.offset ∧ Covers t t.space t.offset :=
  ⟨(covers_one h.flagSize).mpr ⟨rfl, rfl⟩, (covers_one h.tempSize).mpr ⟨rfl, rfl⟩⟩

theorem FlagTemp.ne_const (h : FlagTemp f t) : f.space ≠ .const ∧ t.space ≠ .const := by
  rw [h.flag, h.temp]
  decide

theorem Linked.operand (h : Linked X f t s s') (hft : FlagTemp f t)
    (hv : v ≠ t → ∀ sp a, Covers v sp a → ¬ X sp a) :
    operand s' (if v = t then f else v) = operand s v := by
  by_cases hvt : v = t
  · subst hvt
    have hread : s'.readWide f = s.readWide v := by
      rw [readWide_one hft.ne_const.1 hft.flagSize, readWide_one hft.ne_const.2 hft.tempSize, h.link]
    simp [OperationLocality.operand, hread, hft.flagSize, hft.tempSize, hft.ne_const]
  · have hread : s'.readWide v = s.readWide v :=
      readWide_congr fun sp a ha => h.agree sp a (hv hvt sp a ha)
    simp [OperationLocality.operand, hvt, hread]

theorem Linked.twin (h : Linked X f t s s') (hft : FlagTemp f t) (hram : ∀ a, ¬ X .ram a)
    (hv : ∀ v ∈ op.inputs, v ≠ t → ∀ sp a, Covers v sp a → ¬ X sp a) :
    Twin s s' op (rename t f op) where
  opcode := rfl
  output := rfl
  inputs := by
    rw [rename, map_map]
    exact map_congr_left fun v hmem => h.operand hft (hv v hmem)
  ram := funext fun a => h.agree _ _ (hram a)

theorem Linked.write {u u' : EmulatorState} {bs : List Byte} {vn : VarnodeData}
    (h : Linked X f t s s') (hfit : Fits bs vn)
    (hvn : ¬ Covers vn f.space f.offset ∧ ¬ Covers vn t.space t.offset)
    (hu : u.bytes = stored s.bytes vn.space vn.offset bs)
    (hu' : u'.bytes = stored s'.bytes vn.space vn.offset bs) : Linked X f t u u' where
  agree sp a ha := by
    rw [hu, hu']
    exact hfit.stored_congr (h.agree sp a ha)
  link := by rw [hu, hu', hfit.frame _ hvn.1, hfit.frame _ hvn.2, h.link]

theorem storeSeen_twin {op' : PcodeOp} (h : Twin s s' op op') :
    storeSeen s' op' = storeSeen s op := by
  unfold storeSeen
  rw [h.opcode]
  rcases h.input_cases 0 with ⟨h0, h0'⟩ | ⟨a, a', h0, h0', ha⟩
  · simp [h0, h0']
  rcases h.input_cases 1 with ⟨h1, h1'⟩ | ⟨b, b', h1, h1', hb⟩
  · simp [h0, h0', h1, h1']
  rcases h.input_cases 2 with ⟨h2, h2'⟩ | ⟨c, c', h2, h2', hc⟩
  · simp [h0, h0', h1, h1', h2, h2']
  simp [h0, h0', h1, h1', h2, h2', readVarnode_of_operand ha, readVarnode_of_operand hb,
    readWide_of_operand hc, size_of_operand hc]

theorem linked_steps (g : Intrinsics) (hft : FlagTemp f t) (hram : ∀ a, ¬ X .ram a)
    (hv : ∀ v ∈ op.inputs, v ≠ t → ∀ sp a, Covers v sp a → ¬ X sp a)
    (hout : ∀ w, op.output = some w → ¬ Covers w f.space f.offset ∧ ¬ Covers w t.space t.offset)
    (hstore : op.opcode = .store → ∀ v, op.input 0 = some v → v.space = SpaceId.const ∧
      v.offset.toNat % 2 ^ 32 ≠ SpaceId.register ∧ v.offset.toNat % 2 ^ 32 ≠ SpaceId.unique) :
    StepsTo g.run (Linked X f t) (Linked X f t) op (rename t f op) := by
  intro s s' h
  have htwin := h.twin hft hram hv
  refine ⟨storeSeen_twin htwin, ?_⟩
  obtain ⟨e, hallowed, he, he'⟩ := execute_local g htwin
  cases e with
  | stop =>
    obtain ⟨⟨e, hx⟩, e', hx'⟩ := And.intro he he'
    exact Or.inl ⟨e, e', hx, hx'⟩
  | keep =>
    obtain ⟨u, hx, hu⟩ := he
    obtain ⟨u', hx', hu'⟩ := he'
    exact Or.inr ⟨u, u', hx, hx', fun sp a ha => by rw [hu, hu', h.agree sp a ha],
      by rw [hu, hu', h.link]⟩
  | output bs =>
    obtain ⟨u, vn, hx, ho, hfit, hu⟩ := he
    obtain ⟨u', vn', hx', ho', -, hu'⟩ := he'
    obtain rfl : vn' = vn := some.inj (ho'.symm.trans ho)
    exact .inr ⟨u, u', hx, hx', h.write hfit (hout vn' ho) hu hu'⟩
  | store vn bs =>
    obtain ⟨u, hx, hfit, hu⟩ := he
    obtain ⟨u', hx', -, hu'⟩ := he'
    obtain ⟨hoc, v, hv0, hsp⟩ := hallowed
    obtain ⟨hconst, hreg, hunique⟩ := hstore hoc v hv0
    have hspace : vn.space = v.offset.toNat % 2 ^ 32 := by
      simpa [EmulatorState.readVarnode, PageAccess.readVarnode, hconst] using hsp
    have hvn : ¬ Covers vn f.space f.offset ∧ ¬ Covers vn t.space t.offset := by
      refine ⟨fun hc => hreg ?_, fun hc => hunique ?_⟩
      · rw [← hspace, ← hc.1, hft.flag]
      · rw [← hspace, ← hc.1, hft.temp]
    exact .inr ⟨u, u', hx, hx', h.write hfit hvn hu hu'⟩

end Linked

section OneFold

variable {g : Intrinsics} {f t : VarnodeData} {s s' : EmulatorState}

/-- Between the operation and the copy. -/
abbrev Moved (f t : VarnodeData) := Linked (fun sp a => Covers t sp a ∨ Covers f sp a) f t

/-- Behind the copy. -/
abbrev Copied (f t : VarnodeData) := Linked (Covers t) f t

theorem FlagTemp.apart (h : FlagTemp f t) : Covers t sp a → ¬ Covers f sp a := by
  rintro ⟨rfl, -⟩ ⟨hsp, -⟩
  rw [h.flag, h.temp] at hsp
  exact absurd hsp (by decide)

theorem FlagTemp.flagCell (h : FlagTemp f t) (ha : Covers f sp a) : FlagCell sp a := by
  obtain ⟨rfl, rfl⟩ := (covers_one h.flagSize).mp ha
  exact ⟨h.flag, h.low, h.high⟩

theorem moved_stoppable (h : FlagTemp f t) : Stoppable (Moved f t) := by
  intro s s' hs sp a hsp hflag
  refine hs.agree sp a ?_
  rintro (ht | hf)
  · exact hsp (ht.1.trans h.temp)
  · exact hflag (h.flagCell hf)

theorem copied_stoppable (h : FlagTemp f t) : Stoppable (Copied f t) := fun _ _ hs sp a hsp _ =>
  hs.agree sp a fun ht => hsp (ht.1.trans h.temp)

theorem stored_first {bs : List Byte} (hfit : Fits bs v) (hv : v.size = 1)
    (m : SpaceId → U64 → Byte) : some (stored m v.space v.offset bs v.space v.offset) = bs[0]? := by
  have hlen : 0 < bs.length := by
    have := hfit.full
    omega
  rw [stored_apply hfit.short]
  simp [getElem?_eq_getElem hlen]

theorem moved_of_define {o : PcodeOp} (hft : FlagTemp f t) (ho : o.output = some t)
    (hdef : Defines g o) :
    StepsTo g.run Eq (Moved f t) o { o with output := some f } := by
  rintro s _ rfl
  have htwin : Twin s s o { o with output := some f } :=
    ⟨rfl, by simp [ho, hft.flagSize, hft.tempSize], rfl, rfl⟩
  refine ⟨storeSeen_twin htwin, ?_⟩
  obtain ⟨e, hallowed, he, he'⟩ := execute_local g htwin
  cases e with
  | stop =>
    obtain ⟨⟨e, hx⟩, e', hx'⟩ := And.intro he he'
    exact Or.inl ⟨e, e', hx, hx'⟩
  | keep =>
    rcases hallowed with hnone | hbranch | ⟨hintrinsic, hleft⟩
    · simp [ho] at hnone
    · exact absurd hbranch hdef.cBranch
    · refine absurd hleft (hdef.intrinsic hintrinsic _ ?_)
      simp [operand, shape, Function.comp_def]
  | output bs =>
    obtain ⟨u, vn, hx, hvn, hfit, hu⟩ := he
    obtain ⟨u', vn', hx', hvn', hfit', hu'⟩ := he'
    obtain rfl : vn = t := some.inj (hvn.symm.trans ho)
    obtain rfl : vn' = f := (some.inj hvn').symm
    refine .inr ⟨u, u', hx, hx', fun sp a ha => ?_, ?_⟩
    · rw [hu, hu', hfit.frame _ (fun h => ha (.inl h)), hfit'.frame _ (fun h => ha (.inr h))]
    · apply some.inj
      rw [hu, hu', stored_first hfit hft.tempSize, stored_first hfit' hft.flagSize]
  | store vn bs => exact absurd hallowed.1 hdef.store

theorem toLeBytes_byte (b : Byte) : toLeBytes (min 1 8) ((b.setWidth 128).setWidth 64) = [b] := by
  have hlow : (b.setWidth 64).extractLsb' 0 8 = b := by
    ext i hi
    simp [show i < 64 by omega, BitVec.getLsbD_eq_getElem hi]
  simp [toLeBytes, hlow]

theorem copied_of_copy (hft : FlagTemp f t) (h : Moved f t s s') :
    ∃ u, execute g.run s ⟨.copy, some f, [t]⟩ = .ok u ∧ Copied f t u s' := by
  have hexec : execute g.run s ⟨.copy, some f, [t]⟩ = .ok (s.writeVarnode f (s.readVarnode t)) := by
    show (if f.size > 8 then (.ok (s.writeWide f (s.readWide t)) : Result)
      else .ok (s.writeVarnode f (s.readVarnode t))) = _
    rw [if_neg (by rw [hft.flagSize]; norm_num)]
  have hfit : Fits (toLeBytes (min f.size 8) (s.readVarnode t)) f :=
    fits_toLeBytes f _ le_rfl (by norm_num)
  have hbytes := s.bytes_writeVarnode f (s.readVarnode t)
  have hflag : (s.writeVarnode f (s.readVarnode t)).bytes f.space f.offset =
      s.bytes t.space t.offset := by
    apply some.inj
    rw [hbytes, stored_first hfit hft.flagSize, readVarnode_eq_readWide,
      readWide_one hft.ne_const.2 hft.tempSize, hft.flagSize, toLeBytes_byte]
    rfl
  refine ⟨_, hexec, fun sp a ha => ?_, ?_⟩
  · by_cases hf : Covers f sp a
    · obtain ⟨rfl, rfl⟩ := (covers_one hft.flagSize).mp hf
      rw [hflag, h.link]
    · rw [hbytes, hfit.frame _ hf]
      exact h.agree sp a (not_or.mpr ⟨ha, hf⟩)
  · rw [hbytes, hfit.frame _ (hft.apart hft.cells.2), h.link]

end OneFold

section WholeFold

variable {g : Intrinsics} {ops ops' : List PcodeOp} {i : ℕ}

section

variable (F : Fold ops ops' i)

include F

theorem Fold.mem_ops {op : PcodeOp} :
    op ∈ ops ↔ op ∈ F.pre ∨ op = F.o ∨ op ∈ F.mid ∨ op = ⟨.copy, some F.f, [F.t]⟩ ∨ op ∈ F.post := by
  conv_lhs => rw [F.ops_eq]
  simp only [mem_append, mem_cons]

theorem Fold.copy_mem : (⟨.copy, some F.f, [F.t]⟩ : PcodeOp) ∈ ops :=
  F.mem_ops.mpr (by simp)

theorem Fold.flagTemp (h : Foldable g ops) : FlagTemp F.f F.t := by
  obtain ⟨hsp, hlow, hhigh, hsize⟩ := isFlag_iff.mp F.flag
  exact ⟨hsp, F.temp, hsize, (h.copies _ F.copy_mem rfl _ _ rfl rfl).trans hsize, hlow, hhigh⟩

theorem Fold.apart (h : Foldable g ops) (hv : v ∈ varnodes ops) (ha : Covers v sp a) :
    (v ≠ F.t → ¬ Covers F.t sp a) ∧ (v ≠ F.f → ¬ Covers F.f sp a) := by
  have hf : F.f ∈ varnodes ops := output_mem_varnodes F.copy_mem rfl
  have ht : F.t ∈ varnodes ops := input_mem_varnodes F.copy_mem (by simp)
  constructor
  · intro hne
    exact ((h.whole v hv F.t ht (.inl F.temp)).resolve_left hne).not_covers ha
  · intro hne
    exact ((h.whole v hv F.f hf (.inr F.flag)).resolve_left hne).not_covers ha

theorem Fold.output_apart (h : Foldable g ops) {op : PcodeOp} (hop : op ∈ ops)
    (hne : op.output ≠ some F.t ∧ op.output ≠ some F.f) (w : VarnodeData)
    (hw : op.output = some w) :
    ¬ Covers w F.f.space F.f.offset ∧ ¬ Covers w F.t.space F.t.offset := by
  have hcells := (F.flagTemp h).cells
  have hmem := output_mem_varnodes hop hw
  exact ⟨fun hc => (F.apart h hmem hc).2 (fun he => hne.2 (he ▸ hw)) hcells.1,
    fun hc => (F.apart h hmem hc).1 (fun he => hne.1 (he ▸ hw)) hcells.2⟩

theorem Fold.preserved (h : Foldable g ops) (s : EmulatorState) :
    Preserved (outline g.run s ops) (outline g.run s ops') := by
  have hft := F.flagTemp h
  have hram : ∀ a, ¬ Covers F.t .ram a := fun a ha => by
    have := ha.1.trans hft.temp
    exact absurd this (by decide)
  have hram' : ∀ a, ¬ (Covers F.t .ram a ∨ Covers F.f .ram a) := fun a ha => by
    have := (ha.resolve_left (hram a)).1.trans hft.flag
    exact absurd this (by decide)
  have hmid : List.Forall₂ (StepsTo g.run (Moved F.f F.t) (Moved F.f F.t)) F.mid
      (F.mid.map (rename F.t F.f)) := by
    rw [forall₂_map_right_iff, forall₂_same]
    intro m hm
    have hmem : m ∈ ops := F.mem_ops.mpr (by simp [hm])
    obtain ⟨hnt, hnf, hreads⟩ := F.mid_clear m hm
    refine linked_steps g hft hram' (fun v hv hvt sp a ha => ?_) (F.output_apart h hmem ⟨hnt, hnf⟩)
      (h.stores m hmem)
    have hclear := F.apart h (input_mem_varnodes hmem hv) ha
    exact not_or.mpr ⟨hclear.1 hvt, hclear.2 fun he => hreads (he ▸ hv)⟩
  have hpost : List.Forall₂ (StepsTo g.run (Copied F.f F.t) (Copied F.f F.t)) F.post
      (F.post.map (rename F.t F.f)) := by
    rw [forall₂_map_right_iff, forall₂_same]
    intro m hm
    have hmem : m ∈ ops := F.mem_ops.mpr (by simp [hm])
    exact linked_steps g hft hram
      (fun v hv hvt sp a ha => (F.apart h (input_mem_varnodes hmem hv) ha).1 hvt)
      (F.output_apart h hmem (F.post_clear m hm)) (h.stores m hmem)
  have hpre : List.Forall₂ (StepsTo g.run Eq Eq) F.pre F.pre := by
    rw [forall₂_same]
    rintro p - u _ rfl
    refine ⟨rfl, ?_⟩
    cases hx : execute g.run u p with
    | error e => exact .inl ⟨e, e, rfl, rfl⟩
    | ok v => exact .inr ⟨v, v, rfl, rfl, rfl⟩
  -- from the end of the list to its start
  have hafter : ∀ u u', Copied F.f F.t u u' →
      Preserved (outline g.run u F.post) (outline g.run u' (F.post.map (rename F.t F.f))) := by
    have hnil : ∀ u u', Copied F.f F.t u u' → Preserved (outline g.run u []) (outline g.run u' []) :=
      fun u u' hu => ⟨rfl, rfl, fun sp a hsp _ => hu.agree sp a fun ha => hsp (ha.1.trans hft.temp)⟩
    simpa using outline_steps hpost (copied_stoppable hft) hnil
  have hcopy : ∀ u u', Moved F.f F.t u u' →
      Preserved (outline g.run u (⟨.copy, some F.f, [F.t]⟩ :: F.post))
        (outline g.run u' (F.post.map (rename F.t F.f))) := by
    intro u u' hu
    obtain ⟨v, hexec, hv⟩ := copied_of_copy (g := g) hft hu
    have hseen : storeSeen u ⟨.copy, some F.f, [F.t]⟩ = none := rfl
    simpa [outline, hexec, hseen] using hafter v u' hv
  have hdefine := outline_step (moved_of_define hft F.defines
      (h.defines F.o (F.mem_ops.mpr (by simp)) F.t F.defines F.temp))
    (fun u _ hu sp a _ _ => by rw [hu]) (outline_steps hmid (moved_stoppable hft) hcopy)
  have hall := outline_steps hpre (fun u _ hu sp a _ _ => by rw [hu]) hdefine s s rfl
  have hops := congrArg (outline g.run s) F.ops_eq
  have hfolded := congrArg (outline g.run s) F.folded_eq
  rw [hops, hfolded, map_append]
  exact hall

theorem Fold.origin {op' : PcodeOp} (h : op' ∈ ops') : ∃ op ∈ ops, op'.opcode = op.opcode ∧
      (op'.inputs = op.inputs ∨
        op'.inputs = op.inputs.map fun inp => if inp = F.t then F.f else inp) ∧
      (op'.output = op.output ∨ (op.output = some F.t ∧ op'.output = some F.f)) := by
  have hmem := h
  rw [F.folded_eq] at hmem
  simp only [mem_append, mem_cons, mem_map] at hmem
  rcases hmem with hpre | rfl | ⟨m, hm, rfl⟩
  · exact ⟨op', F.mem_ops.mpr (.inl hpre), rfl, .inl rfl, .inl rfl⟩
  · exact ⟨F.o, F.mem_ops.mpr (by simp), rfl, .inl rfl, .inr ⟨F.defines, rfl⟩⟩
  · exact ⟨m, F.mem_ops.mpr (by tauto), rfl, .inr rfl, .inl rfl⟩

theorem Fold.varnodes_subset (hv : v ∈ varnodes ops') : v ∈ varnodes ops := by
  obtain ⟨op', hop', hv⟩ := mem_flatMap.mp hv
  obtain ⟨op, hop, -, hin, hout⟩ := F.origin hop'
  have hf : F.f ∈ varnodes ops := output_mem_varnodes F.copy_mem rfl
  rcases mem_append.mp hv with hv | hv
  · rw [Option.mem_toList] at hv
    rcases hout with hout | ⟨-, hout⟩
    · exact output_mem_varnodes hop (hout ▸ hv)
    · rwa [← some.inj (hout.symm.trans hv)]
  · rcases hin with hin | hin
    · exact input_mem_varnodes hop (hin ▸ hv)
    · rw [hin] at hv
      obtain ⟨w, hw, rfl⟩ := mem_map.mp hv
      by_cases hwt : w = F.t
      · simpa [hwt] using hf
      · simpa [hwt] using input_mem_varnodes hop hw

end

theorem shape_rename (h : FlagTemp f t) (v : VarnodeData) :
    shape (if v = t then f else v) = shape v := by
  by_cases hv : v = t
  · subst hv
    simp [shape, h.flagSize, h.tempSize, h.ne_const]
  · simp [hv]

theorem Fold.foldable (F : Fold ops ops' i) (h : Foldable g ops) : Foldable g ops' := by
  have hft := F.flagTemp h
  have hsize : F.f.size = F.t.size := hft.flagSize.trans hft.tempSize.symm
  have hshapes : ∀ {op op' : PcodeOp}, (op'.inputs = op.inputs ∨
      op'.inputs = op.inputs.map fun inp => if inp = F.t then F.f else inp) →
      op'.inputs.map shape = op.inputs.map shape := by
    intro op op' hin
    rcases hin with hin | hin
    · rw [hin]
    · rw [hin, map_map]
      exact map_congr_left fun v _ => shape_rename hft v
  refine ⟨fun v hv w hw => h.whole v (F.varnodes_subset hv) w (F.varnodes_subset hw), ?_, ?_, ?_⟩
  · intro op' hop' hcopy f t hf ht
    obtain ⟨op, hop, hoc, hin, hout⟩ := F.origin hop'
    have hshape := hshapes hin
    rw [ht] at hshape
    obtain ⟨t₀, ht₀⟩ : ∃ t₀, op.inputs = [t₀] := by
      rw [← length_eq_one_iff]
      simpa using (congrArg List.length hshape).symm
    have ht₀size : t.size = t₀.size := by
      rw [ht₀] at hshape
      exact congrArg Prod.fst (List.cons.inj hshape).1
    rw [ht₀size]
    rcases hout with hout | ⟨hout, hout'⟩
    · exact h.copies op hop (hoc ▸ hcopy) f t₀ (hout ▸ hf) ht₀
    · rw [h.copies op hop (hoc ▸ hcopy) F.t t₀ hout ht₀, ← hsize,
        some.inj (hout'.symm.trans hf)]
  · intro op' hop' hstore v hv
    obtain ⟨op, hop, hoc, hin, -⟩ := F.origin hop'
    obtain ⟨v₀, hv₀, hshape⟩ : ∃ v₀, op.input 0 = some v₀ ∧ shape v₀ = shape v := by
      have h0 := congrArg (·[0]?) (hshapes hin)
      simp only [List.getElem?_map] at h0
      rw [show op'.inputs[0]? = some v from hv, Option.map_some] at h0
      exact Option.map_eq_some_iff.mp h0.symm
    obtain ⟨hconst, hreg, hunique⟩ := h.stores op hop (hoc ▸ hstore) v₀ hv₀
    have hsame := congrArg Prod.snd hshape
    simp only [shape, hconst, if_true] at hsame
    split at hsame
    · next hvc =>
      rw [← some.inj hsame]
      exact ⟨hvc, hreg, hunique⟩
    · cases hsame
  · intro op' hop' w hw hspace
    obtain ⟨op, hop, hoc, hin, hout⟩ := F.origin hop'
    have hsame : op'.output = op.output := by
      refine hout.resolve_right fun ho => ?_
      rw [← some.inj (ho.2.symm.trans hw), hft.flag] at hspace
      exact absurd hspace (by decide)
    obtain ⟨hstore, hbranch, hintrinsic⟩ := h.defines op hop w (hsame ▸ hw) hspace
    refine ⟨hoc ▸ hstore, hoc ▸ hbranch, ?_⟩
    rw [hoc, hsame, hshapes hin]
    exact hintrinsic

end WholeFold

theorem foldFrom_preserves {g : Intrinsics} (ops : List PcodeOp) (i : ℕ) (h : Foldable g ops)
    (s : EmulatorState) : Preserved (outline g.run s ops) (outline g.run s (foldFrom ops i)) := by
  induction ops, i using foldFrom.induct with
  | case1 ops i hi ops' hfold ih =>
    obtain ⟨F⟩ := foldAt_eq_some hfold
    rw [foldFrom, dif_pos hi]
    split
    · next ops'' hfold' =>
      obtain rfl : ops' = ops'' := some.inj (hfold.symm.trans hfold')
      exact (F.preserved h s).trans (ih (F.foldable h))
    · next hnone => simp [hfold] at hnone
  | case2 ops i hi hfold ih =>
    rw [foldFrom, dif_pos hi]
    split
    · next ops'' hfold' => simp [hfold] at hfold'
    · exact ih h
  | case3 ops i hi =>
    rw [foldFrom, dif_neg hi]
    exact .refl _

/-- Every temporary is written before it is read. -/
def WrittenFirst : List VarnodeData → List PcodeOp → Bool
  | _, [] => true
  | written, op :: ops =>
    op.inputs.all (fun v => v.space ≠ .unique ∨ v ∈ written) &&
      WrittenFirst (op.output.toList ++ written) ops

def zf : VarnodeData := ⟨.register, 0x206, 1⟩
def temp (size : ℕ) : VarnodeData := ⟨.unique, 0x2000, size⟩
def constant (v : U64) (size : ℕ) : VarnodeData := ⟨.const, v, size⟩

/-- A branch is taken between the operation and the copy. -/
def acrossBranch : List PcodeOp :=
  [⟨.copy, some (temp 1), [constant 1 1]⟩,
    ⟨.cBranch, none, [⟨.ram, 0x401000, 8⟩, constant 1 1]⟩, ⟨.copy, some zf, [temp 1]⟩]

/-- The copy takes one byte of four, and the temporary is read again. -/
def wideTemp : List PcodeOp :=
  [⟨.copy, some (temp 4), [constant 0x100 4]⟩, ⟨.copy, some zf, [temp 4]⟩,
    ⟨.copy, some ⟨.register, 0, 4⟩, [temp 4]⟩]

/-- The second operation is a bit scan of zero, which leaves its output as it was. -/
def scanOfZero : List PcodeOp :=
  [⟨.copy, some (temp 1), [constant 1 1]⟩,
    ⟨.callOther, some (temp 1), [constant 1 8, constant 0 8]⟩, ⟨.copy, some zf, [temp 1]⟩]

/-- A store to the register space overwrites the flag before the copy. -/
def storeOver : List PcodeOp :=
  [⟨.copy, some (temp 1), [constant 1 1]⟩,
    ⟨.store, none, [constant 2 8, constant 0x206 8, constant 0 1]⟩, ⟨.copy, some zf, [temp 1]⟩]

def registerAfter (ops : List PcodeOp) (a : U64) : Byte :=
  (executeOps (Intrinsics.run fun _ _ _ => .ok .left) ⟨EmulatorState.new, 0⟩ ops).1.state.bytes
    .register a

theorem foldFlagCopies_changes_run :
    (Whole acrossBranch ∧ WrittenFirst [] acrossBranch ∧ registerAfter acrossBranch 0x206 = 0 ∧
      registerAfter (foldFlagCopies acrossBranch) 0x206 = 1) ∧
    (Whole wideTemp ∧ WrittenFirst [] wideTemp ∧ registerAfter wideTemp 1 = 1 ∧
      registerAfter (foldFlagCopies wideTemp) 1 = 0) ∧
    (Whole scanOfZero ∧ WrittenFirst [] scanOfZero ∧ registerAfter scanOfZero 0x206 = 1 ∧
      registerAfter (foldFlagCopies scanOfZero) 0x206 = 0) ∧
    (Whole storeOver ∧ WrittenFirst [] storeOver ∧ registerAfter storeOver 0x206 = 1 ∧
      registerAfter (foldFlagCopies storeOver) 0x206 = 0) := by
  decide +kernel

/-- Folding preserves what a run does to registers, flags and memory, and what its stores
see. A run that stops early does so in both lists, with nothing but flags to differ. -/
theorem foldFlagCopies_preserves_run {g : Intrinsics} {ops : List PcodeOp} (h : Foldable g ops)
    (em : Emulator) :
    storesSeen g.run em (foldFlagCopies ops) = storesSeen g.run em ops ∧
      (executeOps g.run em (foldFlagCopies ops)).2.isOk = (executeOps g.run em ops).2.isOk ∧
      ∀ sp a, sp ≠ .unique → ((executeOps g.run em ops).2.isOk ∨ ¬ FlagCell sp a) →
        (executeOps g.run em (foldFlagCopies ops)).1.state.bytes sp a =
          (executeOps g.run em ops).1.state.bytes sp a := by
  have hrun := foldFrom_preserves ops 0 h em.state
  rw [outline_eq, outline_eq] at hrun
  exact ⟨hrun.stores, hrun.complete, hrun.bytes⟩

/-- A comparison whose result goes to a register and to a flag. -/
def compared : List PcodeOp :=
  [⟨.intEqual, some (temp 1), [⟨.register, 0, 8⟩, constant 0 8]⟩,
    ⟨.boolNegate, some ⟨.register, 0x18, 1⟩, [temp 1]⟩, ⟨.copy, some zf, [temp 1]⟩]

theorem compared_foldable : Foldable (fun _ _ _ => .ok .left) compared where
  whole := by decide
  copies := by simp [compared, zf, temp]
  stores := by simp [compared]
  defines := by
    intro op hop t _ _
    have hcode : op.opcode = .intEqual ∨ op.opcode = .boolNegate ∨ op.opcode = .copy := by
      simp only [compared, mem_cons, not_mem_nil, or_false] at hop
      rcases hop with rfl | rfl | rfl <;> simp
    constructor <;> rcases hcode with h | h | h <;> simp [h, isIntrinsic, isFloatOpcode]

theorem foldFlagCopies_preserves_compared :
    let run := Intrinsics.run fun _ _ _ => .ok .left
    let em : Emulator := ⟨EmulatorState.new, 0⟩
    storesSeen run em (foldFlagCopies compared) = storesSeen run em compared ∧
      (executeOps run em (foldFlagCopies compared)).2.isOk = (executeOps run em compared).2.isOk ∧
      registerAfter (foldFlagCopies compared) 0x206 = registerAfter compared 0x206 ∧
      (foldFlagCopies compared).length = 2 := by
  intro run em
  obtain ⟨stores, ok, bytes⟩ := foldFlagCopies_preserves_run compared_foldable em
  exact ⟨stores, ok, bytes .register 0x206 (by decide) (.inl (by decide +kernel)),
    by decide +kernel⟩

end FlagFolding
