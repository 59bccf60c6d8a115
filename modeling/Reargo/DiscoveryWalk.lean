import Reargo.FunctionDiscovery

/-!
# What a walk finds

The walk of one function visits the instructions of its body and nothing else, its entry
among them, and lists the targets of their direct calls.
-/
namespace DiscoveryWalk

open PcodeModel FunctionDiscovery ReferenceParts
open List hiding dedup

def CallsAt (decode : Decode) (a t : U64) : Prop :=
  ∃ insn, decode a = some insn ∧ insn.flow = .call ∧ insn.branchTarget = some t

structure BodyOf (decode : Decode) (body : List (U64 × BitVec 32)) (calls : List U64) : Prop where
  insns : ∀ a len, (a, len) ∈ body → ∃ insn, decode a = some insn ∧ insn.length = len
  calls : ∀ t, t ∈ calls ↔ ∃ a len, (a, len) ∈ body ∧ CallsAt decode a t

def Starts (body : List (U64 × BitVec 32)) (a : U64) : Prop := ∃ len, (a, len) ∈ body

structure WalkInv (decode : Decode) (before : Finset U64) (w : Walk) : Prop where
  visited : ∀ a, a ∈ w.visited ↔ a ∈ before ∨ Starts w.body a
  body : BodyOf decode w.body w.callTargets

section Steps

variable {decode : Decode} {before : Finset U64} {w : Walk} {addr : U64} {insn : Facts}

section

variable (h : WalkInv decode before w)

include h

theorem WalkInv.pushBlock (a : U64) : WalkInv decode before (w.pushBlock a) := by
  constructor
  · simpa using h.visited
  · simpa using h.body

theorem WalkInv.pushTarget (insn : Facts) : WalkInv decode before (w.pushTarget insn) := by
  constructor
  · simpa using h.visited
  · simpa using h.body

theorem visited_visit (a : U64) :
    a ∈ (w.visit addr insn).visited ↔ a ∈ before ∨ Starts (w.visit addr insn).body a := by
  simp only [Walk.visit, Finset.mem_insert, h.visited a, Starts, mem_append,
    mem_singleton, Prod.mk.injEq]
  constructor
  · rintro (rfl | hb | ⟨len, hlen⟩)
    · exact .inr ⟨insn.length, .inr ⟨rfl, rfl⟩⟩
    · exact .inl hb
    · exact .inr ⟨len, .inl hlen⟩
  · rintro (hb | ⟨len, hlen | ⟨rfl, -⟩⟩)
    · exact .inr (.inl hb)
    · exact .inr (.inr ⟨len, hlen⟩)
    · exact .inl rfl

theorem insns_visit (hd : decode addr = some insn) (a : U64)
    (len : BitVec 32) (ha : (a, len) ∈ (w.visit addr insn).body) :
    ∃ insn, decode a = some insn ∧ insn.length = len := by
  rcases mem_append.mp ha with ha | ha
  · exact h.body.insns a len ha
  · obtain ⟨rfl, rfl⟩ := Prod.mk.inj (mem_singleton.mp ha)
    exact ⟨insn, hd, rfl⟩

end

theorem calls_visit (hd : decode addr = some insn) (t : U64) :
    (∃ a len, (a, len) ∈ (w.visit addr insn).body ∧ CallsAt decode a t) ↔
      (∃ a len, (a, len) ∈ w.body ∧ CallsAt decode a t) ∨
      (insn.flow = .call ∧ insn.branchTarget = some t) := by
  constructor
  · rintro ⟨a, len, ha, hcall⟩
    rcases mem_append.mp ha with ha | ha
    · exact .inl ⟨a, len, ha, hcall⟩
    · obtain ⟨rfl, rfl⟩ := Prod.mk.inj (mem_singleton.mp ha)
      obtain ⟨insn', hd', hflow, htarget⟩ := hcall
      obtain rfl : insn = insn' := Option.some.inj (hd.symm.trans hd')
      exact .inr ⟨hflow, htarget⟩
  · rintro (⟨a, len, ha, hcall⟩ | ⟨hflow, htarget⟩)
    · exact ⟨a, len, mem_append_left _ ha, hcall⟩
    · exact ⟨addr, insn.length, mem_append_right _ (mem_singleton.mpr rfl),
        insn, hd, hflow, htarget⟩

section

variable (h : WalkInv decode before w)

include h

theorem WalkInv.visit (hd : decode addr = some insn)
    (hflow : insn.flow ≠ .call) : WalkInv decode before (w.visit addr insn) := by
  refine ⟨visited_visit h, insns_visit h hd, ?_⟩
  intro t
  rw [calls_visit hd t]
  exact (h.body.calls t).trans (or_iff_left fun hcall => hflow hcall.1).symm

theorem WalkInv.visitCall (hd : decode addr = some insn) (hflow : insn.flow = .call) :
    WalkInv decode before ((w.visit addr insn).pushCall insn) := by
  refine ⟨by simpa using visited_visit h, ?_, ?_⟩
  · simpa using insns_visit h hd
  · intro t
    rw [pushCall_body, calls_visit hd t, ← h.body.calls t]
    simp only [Walk.pushCall, hflow, true_and]
    cases insn.branchTarget with
    | none => simp [Walk.visit]
    | some t' => simp [Walk.visit, eq_comm]

theorem WalkInv.walkBlock (start : U64) (n : ℕ) (addr : U64) :
    WalkInv decode before (walkBlock decode start n addr w) := by
  induction n generalizing addr w with
  | zero => exact h
  | succ n ih =>
    simp only [FunctionDiscovery.walkBlock]
    split
    · exact h
    · cases hd : decode addr with
      | none => exact h
      | some insn =>
        simp only
        cases hflow : insn.flow with
        | call => exact ih (h.visitCall hd hflow) _
        | indirectCall => exact ih (h.visit hd (by simp [hflow])) _
        | fall => exact ih (h.visit hd (by simp [hflow])) _
        | unconditionalJump => exact (h.visit hd (by simp [hflow])).pushTarget insn
        | conditionalJump =>
          exact ((h.visit hd (by simp [hflow])).pushTarget insn).pushBlock _
        | indirectJump => exact h.visit hd (by simp [hflow])
        | ret => exact h.visit hd (by simp [hflow])

theorem WalkInv.walkBlocks : WalkInv decode before (walkBlocks decode w) :=
  walkBlocks_keeps (fun _ _ _ h => ⟨h.visited, h.body⟩)
    (fun _ start h => h.walkBlock start maxInsns start) h

end

theorem body_walkBlock {r : U64 × BitVec 32} (h : r ∈ w.body) (start : U64) (n : ℕ)
    (addr : U64) : r ∈ (walkBlock decode start n addr w).body := by
  induction n generalizing addr w with
  | zero => exact h
  | succ n ih =>
    have hvisit : ∀ insn, r ∈ (w.visit addr insn).body := fun _ => mem_append_left _ h
    simp only [FunctionDiscovery.walkBlock]
    split
    · exact h
    · cases decode addr with
      | none => exact h
      | some insn =>
        simp only
        cases insn.flow with
        | call => exact ih (by simpa using hvisit insn) _
        | indirectCall => exact ih (hvisit insn) _
        | fall => exact ih (hvisit insn) _
        | unconditionalJump => simpa using hvisit insn
        | conditionalJump => simpa using hvisit insn
        | indirectJump => exact hvisit insn
        | ret => exact hvisit insn

theorem body_walkBlocks {r : U64 × BitVec 32} (h : r ∈ w.body) :
    r ∈ (FunctionDiscovery.walkBlocks decode w).body :=
  walkBlocks_keeps (K := fun w => r ∈ w.body) (fun _ _ _ h => h)
    (fun _ start h => body_walkBlock h start maxInsns start) h

theorem walkBlock_entry (start : U64) (n : ℕ) (hd : decode start = some insn) :
    (start, insn.length) ∈ (walkBlock decode start (n + 1) start w).body := by
  have hvisit : (start, insn.length) ∈ (w.visit start insn).body :=
    mem_append_right _ (mem_singleton.mpr rfl)
  have hno : ¬ (start ∈ w.visited ∧ start ≠ start) := fun h => h.2 rfl
  simp only [FunctionDiscovery.walkBlock, if_neg hno, hd]
  cases insn.flow with
  | call => exact body_walkBlock (by simpa using hvisit) _ _ _
  | indirectCall => exact body_walkBlock hvisit _ _ _
  | fall => exact body_walkBlock hvisit _ _ _
  | unconditionalJump => simpa using hvisit
  | conditionalJump => simpa using hvisit
  | indirectJump => exact hvisit
  | ret => exact hvisit

theorem walkBlock_undecoded (start : U64) (n : ℕ) (hd : decode start = none) :
    walkBlock decode start n start w = w := by
  cases n with
  | zero => rfl
  | succ n =>
    have hno : ¬ (start ∈ w.visited ∧ start ≠ start) := fun h => h.2 rfl
    simp only [FunctionDiscovery.walkBlock, if_neg hno, hd]

end Steps

section Functions

variable {decode : Decode} {entry : U64} {visited : Finset U64} {references : List Reference}

theorem mem_dedup {α : Type} [DecidableEq α] {l : List α} {a : α} : a ∈ dedup l ↔ a ∈ l := by
  induction l using dedup.induct with
  | case1 => rfl
  | case2 b => rfl
  | case3 b l ih =>
    simp only [dedup, if_true, ih]
    simp
  | case4 b c l hne ih =>
    simp only [dedup, if_neg hne, mem_cons, ih]

theorem disassembleFunction_none (hd : decode entry = none) :
    disassembleFunction decode entry visited references = (visited, references, none) := by
  have hwalk : walkBlocks decode ⟨[entry], ∅, visited, [], [], references⟩ =
      ⟨[], insert entry ∅, visited, [], [], references⟩ := by
    rw [walkBlocks_block rfl (Finset.notMem_empty entry), walkBlock_undecoded _ _ hd]
    exact walkBlocks_nil rfl
  simp only [disassembleFunction, hwalk]
  rfl

structure Walks (decode : Decode) (entry : U64) (visited : Finset U64) (visited' : Finset U64)
    (d : Discovery) : Prop where
  visited : ∀ a, a ∈ visited' ↔ a ∈ visited ∨ Starts d.body a
  body : BodyOf decode d.body d.callTargets
  entry : Starts d.body entry

theorem disassembleFunction_some {insn : Facts} (hd : decode entry = some insn) :
    ∃ visited' references' d, disassembleFunction decode entry visited references =
      (visited', references', some d) ∧ Walks decode entry visited visited' d := by
  have hinitial : WalkInv decode visited ⟨[entry], ∅, visited, [], [], references⟩ := by
    refine ⟨by simp [Starts], by simp, by simp⟩
  have hinv := hinitial.walkBlocks
  have hentry : (entry, insn.length) ∈
      (walkBlocks decode ⟨[entry], ∅, visited, [], [], references⟩).body := by
    rw [walkBlocks_block rfl (Finset.notMem_empty entry)]
    exact body_walkBlocks (walkBlock_entry entry _ hd)
  obtain ⟨w, hw⟩ : ∃ w, walkBlocks decode ⟨[entry], ∅, visited, [], [], references⟩ = w :=
    ⟨_, rfl⟩
  rw [hw] at hinv hentry
  have hbody : w.body.length ≠ 0 := Nat.pos_iff_ne_zero.mp (length_pos_of_mem hentry)
  refine ⟨w.visited, w.references,
    ⟨w.body, dedup (w.callTargets.mergeSort (· ≤ ·)), w.references.length - references.length,
      w.body.length⟩, ?_, ?_⟩
  · simp only [disassembleFunction, hw, if_neg hbody]
  · refine ⟨hinv.visited, ⟨hinv.body.insns, ?_⟩, ⟨insn.length, hentry⟩⟩
    intro t
    simp only [mem_dedup, mem_mergeSort]
    exact hinv.body.calls t

end Functions

end DiscoveryWalk
