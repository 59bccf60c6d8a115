import Reargo.ConditionTests
import Reargo.DeferredTail
import Reargo.LittleEndian

/-!
# Folding a condition into its branch

A block's operations run over a store of bytes: registers, temporaries and RAM, each space
its own. What an operation computes is left open: any function of the bytes it reads. The
operations of the condition tail run just before the branch instead of in place.
-/
namespace ConditionFolding

open PcodeModel SsaModel ConditionTests LittleEndian DeferredTail
open Option (map_some some.injEq)
open Bool hiding not_or or_false
open List hiding after

abbrev Loc := SpaceId × ℕ
abbrev Store := Loc → Byte

def InStorage (d : VarnodeData) (l : Loc) : Prop :=
  l.1 = d.space ∧ d.offset.toNat ≤ l.2 ∧ l.2 < d.offset.toNat + d.size

instance (d : VarnodeData) (l : Loc) : Decidable (InStorage d l) :=
  inferInstanceAs (Decidable (_ ∧ _ ∧ _))

/-- The operations that may change RAM. -/
def writesMemory (opcode : OpCode) : Bool :=
  opcode = .store || opcode = .call || opcode = .callInd || opcode = .callOther

def readsMemory (opcode : OpCode) : Bool := !isPure opcode || opcode = .load

/-- What the operations compute from the bytes of their operands and, where they may read
it, from RAM: a byte of the output, a byte of RAM afterwards. -/
structure Semantics where
  pure : SsaOp → List (List Byte) → ℕ → Byte
  result : SsaOp → List (List Byte) → (ℕ → Byte) → ℕ → Byte
  memory : SsaOp → List (List Byte) → (ℕ → Byte) → ℕ → Byte

/-- The inputs read as values: the target of a direct jump or call is a place. -/
def operandsOf (op : SsaOp) : List ℕ :=
  if op.opcode = .branch ∨ op.opcode = .cBranch ∨ op.opcode = .call then op.inputs.drop 1
  else op.inputs

section Run

variable (func : SsaFunction) (sem : Semantics)

def readValue (σ : Store) (v : ℕ) : List Byte :=
  let d := (func.var v).data
  if d.space = .const then toLeBytes d.size d.offset
  else (List.range d.size).map fun i => σ (d.space, d.offset.toNat + i)

def outputData (i : ℕ) : Option VarnodeData := (func.op i).output.map fun out => (func.var out).data

/-- One operation: its output's bytes, then RAM when it may change it. -/
def execute (i : ℕ) (σ : Store) : Store := fun l =>
  let op := func.op i
  let ins := (operandsOf op).map (readValue func σ)
  let ram := fun a => σ (.ram, a)
  match outputData func i with
  | some d =>
    if InStorage d l then
      if readsMemory op.opcode then sem.result op ins ram (l.2 - d.offset.toNat)
      else sem.pure op ins (l.2 - d.offset.toNat)
    else if writesMemory op.opcode ∧ l.1 = .ram then sem.memory op ins ram l.2
    else σ l
  | none =>
    if writesMemory op.opcode ∧ l.1 = .ram then sem.memory op ins ram l.2 else σ l

def runOps (ops : List ℕ) (σ : Store) : Store := run (execute func sem) ops σ

/-- The block with its condition tail just before the branch. -/
def foldedOps (ops : List ℕ) : List ℕ :=
  (ops.dropLast.filter fun o => o ∉ conditionTail func ops) ++ conditionTail func ops

end Run

section Touch

variable (func : SsaFunction) (sem : Semantics)

def readsAt (i : ℕ) : Set Loc :=
  {l | (∃ v ∈ operandsOf (func.op i), func.isConst v = false ∧ InStorage (func.var v).data l) ∨
    (readsMemory (func.op i).opcode = true ∧ l.1 = .ram)}

def writesAt (i : ℕ) : Set Loc :=
  {l | (∃ out, (func.op i).output = some out ∧ InStorage (func.var out).data l) ∨
    (writesMemory (func.op i).opcode = true ∧ l.1 = .ram)}

variable {func sem} {σ τ : Store} {i v : ℕ}

theorem readValue_congr
    (h : func.isConst v = false → ∀ l, InStorage (func.var v).data l → σ l = τ l) :
    readValue func σ v = readValue func τ v := by
  unfold readValue
  simp only
  split
  · rfl
  · next hspace =>
    refine map_congr_left fun k hk => h (decide_eq_false hspace) _ ⟨rfl, ?_, ?_⟩
    · exact Nat.le_add_right _ _
    · exact Nat.add_lt_add_left (mem_range.mp hk) _

theorem operands_congr (h : ∀ l ∈ readsAt func i, σ l = τ l) :
    (operandsOf (func.op i)).map (readValue func σ) =
      (operandsOf (func.op i)).map (readValue func τ) := by
  refine map_congr_left fun v hv => readValue_congr fun hconst l hl => h l ?_
  exact .inl ⟨v, hv, hconst, hl⟩

theorem not_pure_of_writesMemory {opcode : OpCode} (h : writesMemory opcode = true) :
    isPure opcode = false := by
  cases opcode <;> first | rfl | exact absurd h false_ne_true

theorem ram_congr (h : ∀ l ∈ readsAt func i, σ l = τ l)
    (hr : readsMemory (func.op i).opcode = true) :
    (fun a => σ (.ram, a)) = fun a => τ (.ram, a) :=
  funext fun a => h (.ram, a) (.inr ⟨hr, rfl⟩)

theorem readsMemory_of_writesMemory {opcode : OpCode} (h : writesMemory opcode = true) :
    readsMemory opcode = true := by
  unfold readsMemory
  rw [not_pure_of_writesMemory h]
  rfl

variable (func sem) in
theorem execute_footprint : Footprint (execute func sem) (readsAt func) (writesAt func) where
  frame := by
    intro i σ l hl
    have hmem : ¬ (writesMemory (func.op i).opcode = true ∧ l.1 = .ram) :=
      fun h => hl (.inr h)
    unfold execute outputData
    simp only
    cases hout : (func.op i).output with
    | none =>
      simp only [Option.map_none]
      rw [if_neg hmem]
    | some out =>
      simp only [map_some]
      rw [if_neg fun h => hl (.inl ⟨out, hout, h⟩), if_neg hmem]
  congr := by
    intro i σ τ h l hl
    have hins := operands_congr h
    have hram := ram_congr h
    have hmem : writesMemory (func.op i).opcode = true ∧ l.1 = .ram →
        (fun a => σ (.ram, a)) = fun a => τ (.ram, a) :=
      fun hw => hram (readsMemory_of_writesMemory hw.1)
    unfold execute
    simp only
    rw [hins]
    cases hd : outputData func i with
    | none =>
      rcases hl with ⟨out, hout, -⟩ | hl
      · unfold outputData at hd
        rw [hout] at hd
        cases hd
      · simp only [if_pos hl, hmem hl]
    | some d =>
      simp only
      split
      · split
        · next hr => rw [hram hr]
        · rfl
      · next hnot =>
        rcases hl with ⟨out, hout, hin⟩ | hl
        · unfold outputData at hd
          rw [hout, map_some, some.injEq] at hd
          exact absurd (hd ▸ hin) hnot
        · simp only [if_pos hl, hmem hl]

end Touch

section Tail

variable {func : SsaFunction}

/-- What the scan has established of an operation of the tail `T` of a body: its readers come
later and fold too, and what is left out after it touches nothing it reads. -/
structure Folds (func : SsaFunction) (last : ℕ) (body T : List ℕ) (o : ℕ) : Prop where
  pure : isPure (func.op o).opcode = true
  read : ∃ out, (func.op o).output = some out ∧ (∃ r, r ∈ readersOf func out) ∧
    ∀ r ∈ readersOf func out, o < r ∧ (r ∈ T ∨ r = last)
  clear : ∀ p ∈ body, o < p → p ∉ T → ∀ w, (func.op p).output = some w →
    ∀ v ∈ (func.op o).inputs, func.isConst v = false →
      overlaps (func.var w).data (func.var v).data = false
  loads : (func.op o).opcode = .load → ∀ p ∈ body, o < p → p ∉ T →
    writesMemory (func.op p).opcode = false

structure Scanned (func : SsaFunction) (last : ℕ) (later T : List ℕ) (scan : TailScan) :
    Prop where
  chain : scan.chain = T ++ [last]
  sub : T.Sublist later
  written : ∀ p ∈ later, p ∉ T → ∀ w, (func.op p).output = some w →
    (func.var w).data ∈ scan.written
  memory : ∀ p ∈ later, p ∉ T → writesMemory (func.op p).opcode = true →
    scan.memoryWritten = true
  folds : ∀ o ∈ T, Folds func last later T o

variable {last o : ℕ} {later T : List ℕ} {scan : TailScan}

theorem mem_collectLeaves {block depth v : ℕ} (h : func.isConst v = false) :
    (func.var v).data ∈ (collectLeaves func block depth v).1 := by
  unfold collectLeaves
  rw [h]
  simp only [false_eq_true, if_false]
  split
  · simp
  · simp

/-- What the test of one operation means. -/
theorem folds_spec (h : folds func scan o = true) :
    isPure (func.op o).opcode = true ∧
      (∃ out, (func.op o).output = some out ∧ (∃ r, r ∈ readersOf func out) ∧
        ∀ r ∈ readersOf func out, r ∈ scan.chain) ∧
      (∀ w ∈ scan.written, ∀ v ∈ (func.op o).inputs, func.isConst v = false →
        overlaps w (func.var v).data = false) ∧
      ((func.op o).opcode = .load → scan.memoryWritten = false) := by
  unfold folds at h
  simp only at h
  split at h
  · cases h
  · next out hout =>
    simp only [and_eq_true, not_eq_true', or_eq_false_iff, all_eq_true,
      contains_iff_mem] at h
    obtain ⟨⟨⟨⟨hpure, hne⟩, -⟩, hchain⟩, hchanged, hmemory⟩ := h
    refine ⟨hpure, ⟨out, hout, ?_, hchain⟩, ?_, ?_⟩
    · exact exists_mem_of_ne_nil _ fun hnil => by
        rw [hnil] at hne
        cases hne
    · intro w hw v hv hconst
      rw [any_eq_false] at hchanged
      have hleaf : (func.var v).data ∈
          ((func.op o).inputs.map (collectLeaves func (func.op o).block maxLeafDepth)).flatMap
            Prod.fst :=
        mem_flatMap.mpr ⟨_, mem_map_of_mem hv, mem_collectLeaves hconst⟩
      have hnone := hchanged _ hleaf
      rw [not_eq_true, any_eq_false] at hnone
      exact not_eq_true _ ▸ hnone w hw
    · intro hload
      rw [hload] at hmemory
      simpa using hmemory

theorem Scanned.fold (hs : Scanned func last later T scan) (hlt : ∀ p ∈ later ++ [last], o < p)
    (h : ConditionTests.folds func scan o = true) :
    Scanned func last (o :: later) (o :: T) { scan with chain := o :: scan.chain } := by
  have hnot : ∀ p ∈ later, p ∉ o :: T → p ∉ T := fun p _ hp hT => hp (mem_cons_of_mem o hT)
  have hlater : ∀ p ∈ o :: later, p ∉ o :: T → p ∈ later := by
    intro p hp hn
    rcases mem_cons.mp hp with rfl | hp
    · exact absurd mem_cons_self hn
    · exact hp
  obtain ⟨hpure, ⟨out, hout, hread, hreaders⟩, hclear, hload⟩ := folds_spec h
  constructor
  · rw [hs.chain]
    rfl
  · exact hs.sub.cons_cons o
  · intro p hp hn
    exact hs.written p (hlater p hp hn) (hnot p (hlater p hp hn) hn)
  · intro p hp hn
    exact hs.memory p (hlater p hp hn) (hnot p (hlater p hp hn) hn)
  · intro x hx
    rcases mem_cons.mp hx with rfl | hx
    · refine ⟨hpure, ⟨out, hout, hread, fun r hr => ?_⟩, ?_, ?_⟩
      · have hin := hreaders r hr
        rw [hs.chain, mem_append, mem_singleton] at hin
        refine ⟨hlt r ?_, ?_⟩
        · rcases hin with hin | rfl
          · exact mem_append_left _ (hs.sub.subset hin)
          · exact mem_append_right _ (mem_singleton_self r)
        · rcases hin with hin | rfl
          · exact .inl (mem_cons_of_mem x hin)
          · exact .inr rfl
      · intro p hp _ hn w hw v hv hconst
        exact hclear _ (hs.written p (hlater p hp hn) (hnot p (hlater p hp hn) hn) w hw) v hv hconst
      · intro hl p hp _ hn
        by_contra hmem
        rw [not_eq_false] at hmem
        have hwritten := hs.memory p (hlater p hp hn) (hnot p (hlater p hp hn) hn) hmem
        rw [hload hl] at hwritten
        cases hwritten
    · have hx' := hs.folds x hx
      obtain ⟨out', hout', hread', hall⟩ := hx'.read
      refine ⟨hx'.pure, ⟨out', hout', hread', fun r hr => ?_⟩, ?_, ?_⟩
      · obtain ⟨h1, h2⟩ := hall r hr
        exact ⟨h1, h2.imp_left (mem_cons_of_mem o)⟩
      · intro p hp hxp hn
        exact hx'.clear p (hlater p hp hn) hxp (hnot p (hlater p hp hn) hn)
      · intro hl p hp hxp hn
        exact hx'.loads hl p (hlater p hp hn) hxp (hnot p (hlater p hp hn) hn)

theorem Scanned.leave (hs : Scanned func last later T scan) (hlt : ∀ p ∈ later ++ [last], o < p) :
    Scanned func last (o :: later) T
      { scan with
        written := (func.op o).output.toList.map (fun out => (func.var out).data) ++ scan.written,
        memoryWritten := scan.memoryWritten || (func.op o).opcode = .store ||
          (func.op o).opcode = .call || (func.op o).opcode = .callInd ||
          (func.op o).opcode = .callOther } := by
  have hafter : ∀ x ∈ T, ∀ p ∈ o :: later, x < p → p ∈ later := by
    intro x hx p hp hxp
    rcases mem_cons.mp hp with rfl | hp
    · have := hlt x (mem_append_left _ (hs.sub.subset hx))
      omega
    · exact hp
  constructor
  · exact hs.chain
  · exact hs.sub.cons o
  · intro p hp hn w hw
    rcases mem_cons.mp hp with rfl | hp
    · refine mem_append_left _ ?_
      rw [hw]
      simp
    · exact mem_append_right _ (hs.written p hp hn w hw)
  · intro p hp hn hmem
    rcases mem_cons.mp hp with rfl | hp
    · unfold writesMemory at hmem
      simp only [Bool.or_assoc] at hmem ⊢
      rw [hmem, Bool.or_true]
    · simp only [hs.memory p hp hn hmem, Bool.true_or]
  · intro x hx
    have hx' := hs.folds x hx
    refine ⟨hx'.pure, hx'.read, ?_, ?_⟩
    · exact fun p hp hxp hn => hx'.clear p (hafter x hx p hp hxp) hxp hn
    · exact fun hl p hp hxp hn => hx'.loads hl p (hafter x hx p hp hxp) hxp hn

theorem scanTail_spec (rest : List ℕ) :
    ∀ (later T : List ℕ) (scan : TailScan), Scanned func last later T scan →
      (rest.reverse ++ (later ++ [last])).Pairwise (· < ·) →
      ∃ T', (scanTail func scan rest).chain = T' ++ [last] ∧ T'.Sublist (rest.reverse ++ later) ∧
        ∀ o ∈ T', Folds func last (rest.reverse ++ later) T' o := by
  induction rest with
  | nil =>
    intro later T scan hs _
    exact ⟨T, hs.chain, hs.sub, hs.folds⟩
  | cons o rest ih =>
    intro later T scan hs hsorted
    rw [reverse_cons, append_assoc, singleton_append] at hsorted ⊢
    have hlt : ∀ p ∈ later ++ [last], o < p :=
      fun p hp => rel_of_pairwise_cons (pairwise_append.mp hsorted).2.1 hp
    unfold scanTail
    simp only
    split
    · next hfold => exact ih (o :: later) (o :: T) _ (hs.fold hlt hfold) hsorted
    · split
      · -- a phi: the scan stops, what is left is before the tail
        refine ⟨T, hs.chain, hs.sub.trans ?_, fun x hx => ?_⟩
        · exact (sublist_cons_self o later).trans (sublist_append_right _ _)
        · have hx' := hs.folds x hx
          have hafter : ∀ p ∈ rest.reverse ++ (o :: later), x < p → p ∈ later := by
            intro p hp hxp
            have hxl : x ∈ later ++ [last] := mem_append_left _ (hs.sub.subset hx)
            rcases mem_append.mp hp with hp | hp
            · have := (pairwise_append.mp hsorted).2.2 p hp x (mem_cons_of_mem o hxl)
              omega
            · rcases mem_cons.mp hp with rfl | hp
              · have := hlt x hxl
                omega
              · exact hp
          refine ⟨hx'.pure, hx'.read, ?_, ?_⟩
          · exact fun p hp hxp hn => hx'.clear p (hafter p hp hxp) hxp hn
          · exact fun hl p hp hxp hn => hx'.loads hl p (hafter p hp hxp) hxp hn
      · exact ih (o :: later) T _ (hs.leave hlt) hsorted

theorem conditionTail_spec {ops : List ℕ} (hsorted : ops.Pairwise (· < ·))
    (hlast : ops.getLast? = some last) :
    (conditionTail func ops).Sublist ops.dropLast ∧
      ∀ o ∈ conditionTail func ops, Folds func last ops.dropLast (conditionTail func ops) o := by
  have hsplit : ops.dropLast ++ [last] = ops := dropLast_append_getLast? last hlast
  unfold conditionTail
  rw [hlast]
  simp only
  split
  · have hstart : Scanned func last [] [] ⟨[last], [], false⟩ :=
      ⟨rfl, List.Sublist.slnil, by simp, by simp, by simp⟩
    have hscan := scanTail_spec ops.dropLast.reverse [] [] _ hstart
      (by rw [reverse_reverse, nil_append, hsplit]; exact hsorted)
    obtain ⟨T', hchain, hsub, hfolds⟩ := hscan
    rw [reverse_reverse, append_nil] at hsub hfolds
    rw [hchain, dropLast_concat]
    exact ⟨hsub, hfolds⟩
  · exact ⟨nil_sublist _, fun o ho => absurd ho not_mem_nil⟩

end Tail

def Defines (func : SsaFunction) (i v : ℕ) : Prop :=
  ∃ out, (func.op i).output = some out ∧ valueKey func out = valueKey func v

/-- What lifted code keeps in a block: each value is defined once, RAM is reached by loads,
stores and calls only, an input that is no value is a code address, and no storage reaches
the end of its space. -/
structure Lifted (func : SsaFunction) (ops : List ℕ) : Prop where
  single : ∀ i ∈ ops, ∀ j ∈ ops, ∀ v, Defines func i v → Defines func j v → i = j
  noRam : ∀ i ∈ ops, ∀ v ∈ operandsOf (func.op i) ++ (func.op i).output.toList,
    (func.var v).data.space ≠ .ram
  target : ∀ i ∈ ops, ∀ v ∈ (func.op i).inputs, v ∈ operandsOf (func.op i) ∨
    (func.var v).data.space = .ram ∨ func.isConst v = true
  within : ∀ i ∈ ops, ∀ v ∈ operandsOf (func.op i) ++ (func.op i).output.toList,
    func.isConst v = false → (func.var v).data.offset.toNat + (func.var v).data.size < 2 ^ 64

/-- Run in order from this store, the storage of each value an operation reads is unchanged
since the value's definition, or since the start when the block does not define it. -/
def StorageHolds (func : SsaFunction) (sem : Semantics) (ops : List ℕ) (σ : Store) : Prop :=
  ∀ j i, ops[j]? = some i → ∀ v ∈ operandsOf (func.op i), func.isConst v = false →
    ∀ p < j, (∀ q i', p ≤ q → q < j → ops[q]? = some i' → ¬ Defines func i' v) →
      ∀ l, InStorage (func.var v).data l →
        runOps func sem (ops.take (p + 1)) σ l = runOps func sem (ops.take p) σ l

theorem exists_last {j : ℕ} (P : ℕ → Prop) :
    ∃ b ≤ j, (b = 0 ∨ P (b - 1)) ∧ ∀ q, b ≤ q → q < j → ¬ P q := by
  classical
  induction j with
  | zero => exact ⟨0, Nat.le_refl 0, .inl rfl, fun q _ h => absurd h (Nat.not_lt_zero q)⟩
  | succ j ih =>
    by_cases hj : P j
    · exact ⟨j + 1, Nat.le_refl _, .inr hj, fun q h1 h2 => absurd h2 (by omega)⟩
    · obtain ⟨b, hb, hborn, hnone⟩ := ih
      refine ⟨b, by omega, hborn, fun q h1 h2 => ?_⟩
      rcases lt_or_ge q j with h | h
      · exact hnone q h1 h
      · rw [show q = j by omega]
        exact hj

theorem lt_iff_of_sorted {ops : List ℕ} (h : ops.Pairwise (· < ·)) {a b x y : ℕ}
    (hx : ops[a]? = some x) (hy : ops[b]? = some y) : a < b ↔ x < y := by
  obtain ⟨ha, rfl⟩ := List.getElem?_eq_some_iff.mp hx
  obtain ⟨hb, rfl⟩ := List.getElem?_eq_some_iff.mp hy
  have hmono := pairwise_iff_getElem.mp h
  constructor
  · exact hmono a b ha hb
  · intro hlt
    by_contra hge
    rcases Nat.eq_or_lt_of_le (not_lt.mp hge) with heq | hba
    · subst heq
      omega
    · have := hmono b a hb ha hba
      omega

theorem storage_of_key {func : SsaFunction} {u v : ℕ} (h : valueKey func u = valueKey func v)
    (l : Loc) : InStorage (func.var u).data l ↔ InStorage (func.var v).data l := by
  unfold valueKey slotOf at h
  simp only [Prod.mk.injEq] at h
  unfold InStorage
  rw [h.1.1, h.1.2.1, h.1.2.2]

theorem space_of_key {func : SsaFunction} {u v : ℕ} (h : valueKey func u = valueKey func v) :
    (func.var u).data.space = (func.var v).data.space := by
  unfold valueKey slotOf at h
  simp only [Prod.mk.injEq] at h
  exact h.1.1

variable {o : ℕ}

section Block

variable {func : SsaFunction} {sem : Semantics} {ops : List ℕ} {last : ℕ} {σ : Store} {l : Loc}

theorem mem_operands {op : SsaOp} {v : ℕ} (h : v ∈ operandsOf op) : v ∈ op.inputs := by
  unfold operandsOf at h
  split at h
  · exact mem_of_mem_drop h
  · exact h

theorem mem_readersOf {r out : ℕ} : r ∈ readersOf func out ↔
    r < func.ops.length ∧ (func.op r).dead = false ∧
      ∃ u ∈ (func.op r).inputs, func.isConst u = false ∧ valueKey func u = valueKey func out := by
  unfold readersOf
  simp only [mem_filter, mem_range, and_eq_true, not_eq_true',
    any_eq_true, beq_iff_eq]

/-- The operations moved: the tail and the branch itself. -/
def isLate (func : SsaFunction) (ops : List ℕ) (last : ℕ) (o : ℕ) : Bool :=
  decide (o ∈ conditionTail func ops) || decide (o = last)

theorem isLate_iff : isLate func ops last o = true ↔ o ∈ conditionTail func ops ∨ o = last := by
  unfold isLate
  rw [or_eq_true, decide_eq_true_eq, decide_eq_true_eq]

theorem not_isLate (h : isLate func ops last o = false) :
    o ∉ conditionTail func ops ∧ o ≠ last := by
  rw [← not_eq_true, isLate_iff, not_or] at h
  exact h

theorem mem_body (hlast : ops.getLast? = some last) (ho : o ∈ ops) (hne : o ≠ last) :
    o ∈ ops.dropLast := by
  rw [← dropLast_append_getLast? last hlast, mem_append, mem_singleton] at ho
  exact ho.resolve_right hne

theorem not_common (hl : Lifted func ops) {p v w : ℕ} (hp : p ∈ ops) (ho : o ∈ ops)
    (hw : (func.op p).output = some w) (hv : v ∈ operandsOf (func.op o))
    (hconst : func.isConst v = false) (hno : overlaps (func.var w).data (func.var v).data = false)
    (hlw : InStorage (func.var w).data l) (hlv : InStorage (func.var v).data l) : False := by
  have hspace : (func.var w).data.space = (func.var v).data.space := hlw.1.symm.trans hlv.1
  have hwconst : func.isConst w = false := by
    unfold SsaFunction.isConst at hconst ⊢
    rw [hspace]
    exact hconst
  have hvin := hl.within o ho v (mem_append_left _ hv) hconst
  have hwin := hl.within p hp w (mem_append_right _ (by rw [hw]; simp)) hwconst
  have hover := (overlaps_iff hwin hvin).mpr
    ⟨hspace, lt_of_le_of_lt hlw.2.1 hlv.2.2, lt_of_le_of_lt hlv.2.1 hlw.2.2⟩
  rw [hno] at hover
  cases hover

theorem ram_of_writesAt (hl : Lifted func ops) (ho : o ∈ ops)
    (hram : l.1 = .ram) (hw : l ∈ writesAt func o) :
    writesMemory (func.op o).opcode = true := by
  rcases hw with ⟨out, hout, hin⟩ | h
  · refine absurd (hin.1.symm.trans hram) ?_
    exact hl.noRam o ho out (mem_append_right _ (by rw [hout]; simp))
  · exact h.1

/-- A byte of a value is written by an operation's output. -/
theorem output_of_writesAt {v : ℕ} (hv : (func.var v).data.space ≠ .ram)
    (hlv : InStorage (func.var v).data l) (hw : l ∈ writesAt func o) :
    ∃ w, (func.op o).output = some w ∧ InStorage (func.var w).data l := by
  rcases hw with h | h
  · exact h
  · exact absurd (hlv.1.symm.trans h.2) hv

section Reads

variable {j i v : ℕ} {l : Loc}

theorem operand_since (hh : StorageHolds func sem ops σ) (hi : ops[j]? = some i)
    (hv : v ∈ operandsOf (func.op i)) (hconst : func.isConst v = false)
    (hlv : InStorage (func.var v).data l) :
    ∃ b, Since (execute func sem) (writesAt func) ops σ j l b ∧
      (b ≠ 0 → ∃ d, ops[b - 1]? = some d ∧ Defines func d v) := by
  obtain ⟨b, hb, hborn, hnone⟩ := exists_last (j := j)
    fun q => ∃ d, ops[q]? = some d ∧ Defines func d v
  refine ⟨b, ⟨hb, ?_, fun q h1 h2 => ?_⟩, fun hne => hborn.resolve_left hne⟩
  · rcases hborn with rfl | ⟨d, hd, out, hout, hkey⟩
    · exact .inl rfl
    · exact .inr ⟨d, hd, .inl ⟨out, hout, (storage_of_key hkey l).mpr hlv⟩⟩
  · refine hh j i hi v hv hconst q h2 (fun q' i' hq hq' hi' hdef => ?_) l hlv
    exact hnone q' (by omega) hq' ⟨i', hi', hdef⟩

theorem ram_since (sem : Semantics) (σ : Store) (hl : Lifted func ops) (hi : ops[j]? = some i)
    (hram : l.1 = .ram) :
    ∃ b, Since (execute func sem) (writesAt func) ops σ j l b ∧
      (b ≠ 0 → ∃ d, ops[b - 1]? = some d ∧ writesMemory (func.op d).opcode = true) := by
  have hj := (List.getElem?_eq_some_iff.mp hi).1
  obtain ⟨b, hb, hborn, hnone⟩ := exists_last (j := j)
    fun q => ∃ d, ops[q]? = some d ∧ writesMemory (func.op d).opcode = true
  refine ⟨b, ⟨hb, ?_, fun q h1 h2 => ?_⟩, fun hne => hborn.resolve_left hne⟩
  · rcases hborn with rfl | ⟨d, hd, hmem⟩
    · exact .inl rfl
    · exact .inr ⟨d, hd, .inr ⟨hmem, hram⟩⟩
  · have ho := getElem?_eq_getElem (show q < ops.length by omega)
    rw [after_succ ho]
    refine (execute_footprint func sem).frame _ _ l fun hw => ?_
    exact hnone q h1 h2 ⟨_, ho, ram_of_writesAt hl (mem_of_getElem? ho) hram hw⟩

end Reads

section Covered

variable (hsorted : ops.Pairwise (· < ·)) (hlast : ops.getLast? = some last)
  (hlive : ∀ o ∈ ops, o < func.ops.length ∧ (func.op o).dead = false)
  (hl : Lifted func ops) (hh : StorageHolds func sem ops σ)

include hsorted hlast in
theorem last_position {q : ℕ} (ho : ops[q]? = some o) : o = last ↔ q + 1 = ops.length := by
  have hlen := (List.getElem?_eq_some_iff.mp ho).1
  rw [List.getLast?_eq_getElem?] at hlast
  constructor
  · rintro rfl
    have h1 := lt_iff_of_sorted hsorted ho hlast
    have h2 := lt_iff_of_sorted hsorted hlast ho
    omega
  · intro hq
    rw [show ops.length - 1 = q by omega, ho, some.injEq] at hlast
    exact hlast

include hsorted hlast in
theorem late_mem_tail {q j : ℕ} (ho : ops[q]? = some o) (hq : q < j) (hj : j < ops.length)
    (hlate : isLate func ops last o = true) : o ∈ conditionTail func ops := by
  refine (isLate_iff.mp hlate).resolve_right fun heq => ?_
  have := (last_position hsorted hlast ho).mp heq
  omega

include hsorted hlast hlive in
theorem stays_operand {j i v b : ℕ} (hi : ops[j]? = some i) (hstay : isLate func ops last i = false)
    (hv : v ∈ operandsOf (func.op i)) (hconst : func.isConst v = false) (hb : b ≤ j)
    (hdef : b ≠ 0 → ∃ d, ops[b - 1]? = some d ∧ Defines func d v) :
    Stays ops (isLate func ops last) b := by
  intro o hne ho
  obtain ⟨d, hd, out, hout, hkey⟩ := hdef hne
  rw [ho, some.injEq] at hd
  subst hd
  by_contra hlate
  rw [not_eq_false] at hlate
  have hj := (List.getElem?_eq_some_iff.mp hi).1
  have htail := late_mem_tail hsorted hlast ho (show b - 1 < j by omega) hj hlate
  obtain ⟨out', hout', -, hreaders⟩ := ((conditionTail_spec hsorted hlast).2 o htail).read
  rw [hout, some.injEq] at hout'
  subst hout'
  obtain ⟨hlt, hdead⟩ := hlive i (mem_of_getElem? hi)
  have hread := (hreaders i (mem_readersOf.mpr
    ⟨hlt, hdead, v, mem_operands hv, hconst, hkey.symm⟩)).2
  rw [isLate_iff.mpr hread] at hstay
  cases hstay

include hsorted hlast in
theorem stays_ram {j i b : ℕ} (hi : ops[j]? = some i) (hb : b ≤ j)
    (hmem : b ≠ 0 → ∃ d, ops[b - 1]? = some d ∧ writesMemory (func.op d).opcode = true) :
    Stays ops (isLate func ops last) b := by
  intro o hne ho
  obtain ⟨d, hd, hw⟩ := hmem hne
  rw [ho, some.injEq] at hd
  subst hd
  by_contra hlate
  rw [not_eq_false] at hlate
  have hj := (List.getElem?_eq_some_iff.mp hi).1
  have htail := late_mem_tail hsorted hlast ho (show b - 1 < j by omega) hj hlate
  have hpure := ((conditionTail_spec hsorted hlast).2 o htail).pure
  rw [not_pure_of_writesMemory hw] at hpure
  cases hpure

include hsorted hlast hl in
theorem clear_operand {j i v q p : ℕ} (hi : ops[j]? = some i)
    (hlate : isLate func ops last i = true) (hv : v ∈ operandsOf (func.op i))
    (hconst : func.isConst v = false) (hlv : InStorage (func.var v).data l) (hq : j < q)
    (hp : ops[q]? = some p) (hstay : isLate func ops last p = false) : l ∉ writesAt func p := by
  intro hw
  have hmem := mem_of_getElem? hi
  have hpmem := mem_of_getElem? hp
  have htail := late_mem_tail hsorted hlast hi hq (List.getElem?_eq_some_iff.mp hp).1 hlate
  obtain ⟨hnot, hne⟩ := not_isLate hstay
  have hnoram := hl.noRam i hmem v (mem_append_left _ hv)
  obtain ⟨w, hout, hlw⟩ := output_of_writesAt hnoram hlv hw
  have hno := ((conditionTail_spec hsorted hlast).2 i htail).clear p (mem_body hlast hpmem hne)
    ((lt_iff_of_sorted hsorted hi hp).mp hq) hnot w hout v (mem_operands hv) hconst
  exact not_common hl hpmem hmem hout hv hconst hno hlw hlv

include hsorted hlast hl hh in
theorem early_operand {j i v b q d : ℕ} (hi : ops[j]? = some i)
    (hv : v ∈ operandsOf (func.op i)) (hlv : InStorage (func.var v).data l) (hb : b ≤ j)
    (hd : ops[b - 1]? = some d) (hborn : l ∈ writesAt func d)
    (hstay : isLate func ops last d = false) (hq : q + 1 < b) (ho : ops[q]? = some o)
    (hlate : isLate func ops last o = true) (hw : l ∈ writesAt func o) :
    after (execute func sem) ops σ b l = after (execute func sem) ops σ (q + 1) l := by
  have hj := (List.getElem?_eq_some_iff.mp hi).1
  have hnoram := hl.noRam i (mem_of_getElem? hi) v (mem_append_left _ hv)
  obtain ⟨z, hz, hlz⟩ := output_of_writesAt hnoram hlv hw
  obtain ⟨w, -, -⟩ := output_of_writesAt hnoram hlv hborn
  have htail := late_mem_tail hsorted hlast ho (show q < j by omega) hj hlate
  obtain ⟨z', hz', ⟨r, hr⟩, hreaders⟩ := ((conditionTail_spec hsorted hlast).2 o htail).read
  rw [hz, some.injEq] at hz'
  subst hz'
  obtain ⟨hor, hrlate⟩ := hreaders r hr
  obtain ⟨-, -, u, hu, huconst, hukey⟩ := mem_readersOf.mp hr
  have hrmem : r ∈ ops := by
    rcases hrlate with hrT | rfl
    · exact mem_of_mem_dropLast ((conditionTail_spec hsorted hlast).1.subset hrT)
    · exact mem_of_getLast? hlast
  obtain ⟨j', hj'⟩ := mem_iff_getElem?.mp hrmem
  have hzram := hl.noRam o (mem_of_getElem? ho) z (mem_append_right _ (by rw [hz]; simp))
  have hur : u ∈ operandsOf (func.op r) := by
    rcases hl.target r hrmem u hu with h | h | h
    · exact h
    · exact absurd ((space_of_key hukey).symm.trans h) hzram
    · rw [huconst] at h
      cases h
  have hlu : InStorage (func.var u).data l := (storage_of_key hukey l).mpr hlz
  have hrlate' : isLate func ops last r = true := isLate_iff.mpr hrlate
  rcases lt_trichotomy j' (b - 1) with hlt | heq | hgt
  · exact absurd hborn
      (clear_operand hsorted hlast hl hj' hrlate' hur huconst hlu hlt hd hstay)
  · rw [← heq, hj', some.injEq] at hd
    rw [hd, hstay] at hrlate'
    cases hrlate'
  · have hqj' : q < j' := (lt_iff_of_sorted hsorted ho hj').mpr hor
    have hheld : ∀ p, q + 1 ≤ p → p < j' →
        after (execute func sem) ops σ (p + 1) l = after (execute func sem) ops σ p l := by
      intro p hp hpj
      refine hh j' r hj' u hur huconst p hpj (fun q' i' hpq hq' hi' hdef => ?_) l hlu
      have hsame : i' = o := hl.single i' (mem_of_getElem? hi') o (mem_of_getElem? ho) u
        hdef ⟨z, hz, hukey.symm⟩
      have hord := lt_iff_of_sorted hsorted ho hi'
      rw [hsame] at hord
      omega
    have hsince : Since (execute func sem) (writesAt func) ops σ j' l (q + 1) :=
      ⟨hqj', .inr ⟨o, ho, hw⟩, fun p hp hpj => hheld p hp hpj⟩
    exact (hsince.eq_at (by omega) (by omega)).trans (hsince.eq_at (le_refl _) hqj').symm

include hsorted hlast hlive hl hh in
/-- The block's operations may be deferred so. -/
theorem deferrable :
    Deferrable (execute func sem) (readsAt func) (writesAt func) ops (isLate func ops last) σ where
  stays := by
    intro j i hi hstay l hread
    rcases hread with ⟨v, hv, hconst, hlv⟩ | ⟨-, hram⟩
    · obtain ⟨b, hs, hdef⟩ := operand_since hh hi hv hconst hlv
      exact ⟨b, hs, stays_operand hsorted hlast hlive hi hstay hv hconst hs.le hdef⟩
    · obtain ⟨b, hs, hmem⟩ := ram_since sem σ hl hi hram
      exact ⟨b, hs, stays_ram hsorted hlast hi hs.le hmem⟩
  moves := by
    intro j i hi hlate l hread
    have hj := (List.getElem?_eq_some_iff.mp hi).1
    rcases hread with ⟨v, hv, hconst, hlv⟩ | ⟨hreads, hram⟩
    · obtain ⟨b, hs, hdef⟩ := operand_since hh hi hv hconst hlv
      refine ⟨b, hs, fun hstay => ⟨fun q o hq ho hno => ?_, fun q o hq ho hl' hw => ?_⟩⟩
      · exact clear_operand hsorted hlast hl hi hlate hv hconst hlv hq ho hno
      · rcases hs.born with rfl | ⟨d, hd, hborn⟩
        · omega
        · exact early_operand hsorted hlast hl hh hi hv hlv hs.le hd hborn
            (hstay d (by omega) hd) hq ho hl' hw
    · obtain ⟨b, hs, -⟩ := ram_since sem σ hl hi hram
      refine ⟨b, hs, fun _ => ⟨fun q o hq ho hno hw => ?_, fun q o hq ho hl' hw => ?_⟩⟩
      · have htail := late_mem_tail hsorted hlast hi hq (List.getElem?_eq_some_iff.mp ho).1 hlate
        have hfold := (conditionTail_spec hsorted hlast).2 i htail
        have hload : (func.op i).opcode = .load := by
          unfold readsMemory at hreads
          rw [hfold.pure] at hreads
          simpa using hreads
        obtain ⟨hnot, hne⟩ := not_isLate hno
        have homem := mem_of_getElem? ho
        have hclean := hfold.loads hload o (mem_body hlast homem hne)
          ((lt_iff_of_sorted hsorted hi ho).mp hq) hnot
        rw [ram_of_writesAt hl homem hram hw] at hclean
        cases hclean
      · have hle := hs.le
        have htail := late_mem_tail hsorted hlast ho (show q < j by omega) hj hl'
        have hpure := ((conditionTail_spec hsorted hlast).2 o htail).pure
        rw [not_pure_of_writesMemory (ram_of_writesAt hl (mem_of_getElem? ho) hram hw)]
          at hpure
        cases hpure

end Covered

end Block

theorem filter_mem_of_sublist {α : Type*} [DecidableEq α] {T l : List α} (h : T.Sublist l)
    (hn : l.Nodup) : l.filter (fun o => decide (o ∈ T)) = T := by
  induction h with
  | slnil => rfl
  | cons a hsub ih =>
    rw [nodup_cons] at hn
    rw [filter_cons_of_neg (by simpa using fun hT => hn.1 (hsub.subset hT))]
    exact ih hn.2
  | cons_cons a hsub ih =>
    rw [nodup_cons] at hn
    rw [filter_cons_of_pos (by simp)]
    congr 1
    rw [← ih hn.2]
    refine filter_congr fun x hx => ?_
    have hne : x ≠ a := fun heq => hn.1 (heq ▸ hx)
    rw [ih hn.2, decide_eq_decide, mem_cons, or_iff_right hne]

section Result

variable {func : SsaFunction} {sem : Semantics} {ops : List ℕ} {last : ℕ} {σ : Store}

theorem opsOfBlock_sorted (func : SsaFunction) (b : ℕ) : (opsOfBlock func b).Pairwise (· < ·) :=
  pairwise_lt_range.filter _

theorem opsOfBlock_live {b : ℕ} : ∀ o ∈ opsOfBlock func b,
    o < func.ops.length ∧ (func.op o).dead = false := by
  intro o ho
  unfold opsOfBlock at ho
  simp only [mem_filter, mem_range, and_eq_true, not_eq_true'] at ho
  exact ⟨ho.1, ho.2.1⟩

theorem isLate_body (hsorted : ops.Pairwise (· < ·)) (hlast : ops.getLast? = some last)
    (ho : o ∈ ops.dropLast) : isLate func ops last o = decide (o ∈ conditionTail func ops) := by
  have hsplit := dropLast_append_getLast? last hlast
  have hlt : o < last := by
    rw [← hsplit] at hsorted
    exact (pairwise_append.mp hsorted).2.2 o ho last (mem_singleton_self last)
  unfold isLate
  rw [decide_eq_false (show ¬ o = last by omega), Bool.or_false]

theorem runs_before (func : SsaFunction) (sem : Semantics) (σ : Store)
    (hsorted : ops.Pairwise (· < ·)) (hlast : ops.getLast? = some last) :
    moved (execute func sem) ops (isLate func ops last) σ (ops.length - 1) =
        runOps func sem (foldedOps func ops) σ ∧
      after (execute func sem) ops σ (ops.length - 1) = runOps func sem ops.dropLast σ := by
  have hsplit := dropLast_append_getLast? last hlast
  have htake : ops.take (ops.length - 1) = ops.dropLast := dropLast_eq_take.symm
  have hnodup : ops.dropLast.Nodup :=
    (dropLast_sublist ops).nodup (hsorted.imp fun h => ne_of_lt h)
  have hlate : ops.dropLast.filter (isLate func ops last) = conditionTail func ops := by
    rw [← filter_mem_of_sublist (conditionTail_spec hsorted hlast).1 hnodup]
    exact filter_congr fun o ho => isLate_body hsorted hlast ho
  have hstay : ops.filter (fun o => !isLate func ops last o) =
      ops.dropLast.filter fun o => o ∉ conditionTail func ops := by
    have hend : [last].filter (fun o => !isLate func ops last o) = [] := by
      simp [isLate]
    conv_lhs => rw [← hsplit, filter_append, hsplit, hend, append_nil]
    refine filter_congr fun o ho => ?_
    rw [isLate_body hsorted hlast ho, decide_not]
  constructor
  · unfold moved stayed runOps foldedOps
    rw [htake, take_length, hlate, hstay, run_append]
  · unfold after runOps
    rw [htake]

end Result

/-- `zf = d == 0; *(0x1000) = 1; if (zf) goto 0x2000`, where `d` is a byte. -/
def testThenStore (d : VarnodeData) : SsaFunction where
  varnodes :=
    [⟨d, 0, none, [0]⟩, ⟨⟨.const, 0, 1⟩, 0, none, [0]⟩,
      ⟨⟨.register, 0x206, 1⟩, 1, some 0, [2]⟩, ⟨⟨.const, 1, 4⟩, 0, none, [1]⟩,
      ⟨⟨.const, 0x1000, 8⟩, 0, none, [1]⟩, ⟨⟨.const, 1, 1⟩, 0, none, [1]⟩,
      ⟨⟨.ram, 0x2000, 8⟩, 0, none, [2]⟩]
  ops :=
    [⟨.intEqual, some 2, [0, 1], 0, 0x500, false⟩, ⟨.store, none, [3, 4, 5], 0, 0x502, false⟩,
      ⟨.cBranch, none, [6, 2], 0, 0x505, false⟩]
  cfg := ⟨[], 0, [], OrderedMap.OrdMap.empty⟩
  phantomWrites := []
  phantomRegs := []

/-- Pure operations compare their operands, a store puts one at its address. -/
def comparing : Semantics where
  pure := fun _ ins _ => if ins[0]? = ins[1]? then 1 else 0
  result := fun _ _ _ _ => 0
  memory := fun _ _ ram a => if a = 0x1000 then 1 else ram a

theorem opsOfBlock_testThenStore (d : VarnodeData) :
    opsOfBlock (testThenStore d) 0 = [0, 1, 2] := rfl

theorem testThenStore_holds (d : VarnodeData) (σ : Store) :
    StorageHolds (testThenStore d) comparing (opsOfBlock (testThenStore d) 0) σ := by
  rw [opsOfBlock_testThenStore]
  intro j i hi v hv hconst p hp hnone l hlv
  rcases j with _ | _ | _ | j
  · omega
  · cases hi
    have hv : v ∈ [3, 4, 5] := hv
    simp only [mem_cons, not_mem_nil, or_false] at hv
    rcases hv with rfl | rfl | rfl <;> cases hconst
  · cases hi
    have hv : v ∈ [2] := hv
    obtain rfl := mem_singleton.mp hv
    have hp1 : p = 1 := by
      by_contra hne
      exact hnone 0 0 (by omega) (by omega) rfl ⟨2, rfl, rfl⟩
    subst hp1
    refine (execute_footprint (testThenStore d) comparing).frame 1 _ l ?_
    rintro (⟨out, hout, -⟩ | ⟨-, hram⟩)
    · cases hout
    · have hne : SpaceId.register ≠ SpaceId.ram := by decide
      exact hne (hlv.1.symm.trans hram)
  · cases hi

theorem testThenStore_lifted {d : VarnodeData} (hspace : d.space = .register)
    (hend : d.offset.toNat + d.size < 2 ^ 64) :
    Lifted (testThenStore d) (opsOfBlock (testThenStore d) 0) := by
  rw [opsOfBlock_testThenStore]
  have hmem : ∀ i ∈ [0, 1, 2], i = 0 ∨ i = 1 ∨ i = 2 := by simp
  have hdefines : ∀ i ∈ [0, 1, 2], ∀ v, Defines (testThenStore d) i v → i = 0 := by
    intro i hi v hdef
    obtain ⟨out, hout, -⟩ := hdef
    rcases hmem i hi with rfl | rfl | rfl
    · rfl
    · cases hout
    · cases hout
  have hne : d.space ≠ .ram := by
    rw [hspace]
    decide
  constructor
  · intro i hi j hj v hiv hjv
    rw [hdefines i hi v hiv, hdefines j hj v hjv]
  · intro i hi v hv
    rcases hmem i hi with rfl | rfl | rfl
    · have hv : v ∈ [0, 1, 2] := hv
      rcases hmem v hv with rfl | rfl | rfl
      · exact hne
      · exact show SpaceId.const ≠ SpaceId.ram by decide
      · exact show SpaceId.register ≠ SpaceId.ram by decide
    · have hv : v ∈ [3, 4, 5] := hv
      simp only [mem_cons, not_mem_nil, or_false] at hv
      rcases hv with rfl | rfl | rfl <;> exact show SpaceId.const ≠ SpaceId.ram by decide
    · have hv : v ∈ [2] := hv
      obtain rfl := mem_singleton.mp hv
      exact show SpaceId.register ≠ SpaceId.ram by decide
  · intro i hi v hv
    rcases hmem i hi with rfl | rfl | rfl
    · exact .inl hv
    · exact .inl hv
    · have hv : v ∈ [6, 2] := hv
      simp only [mem_cons, not_mem_nil, or_false] at hv
      rcases hv with rfl | rfl
      · exact .inr (.inl rfl)
      · exact .inl (mem_singleton_self 2)
  · intro i hi v hv hconst
    rcases hmem i hi with rfl | rfl | rfl
    · have hv : v ∈ [0, 1, 2] := hv
      rcases hmem v hv with rfl | rfl | rfl
      · exact hend
      · cases hconst
      · exact show (0x206 : ℕ) + 1 < 2 ^ 64 by decide
    · have hv : v ∈ [3, 4, 5] := hv
      simp only [mem_cons, not_mem_nil, or_false] at hv
      rcases hv with rfl | rfl | rfl <;> cases hconst
    · have hv : v ∈ [2] := hv
      obtain rfl := mem_singleton.mp hv
      exact show (0x206 : ℕ) + 1 < 2 ^ 64 by decide

end ConditionFolding
