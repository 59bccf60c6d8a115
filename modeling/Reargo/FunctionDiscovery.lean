import Mathlib.Data.FinEnum
import Reargo.OrderedMap
import Reargo.ReferenceParts

/-!
# Function discovery

The walk of one function, block by block, and the walk of the work queue with the calls it
finds. Decoding is a partial function of the address.
-/
namespace FunctionDiscovery

open PcodeModel InstructionModel OrderedMap ReferenceParts

/-- What the walk reads of an instruction. -/
structure Facts where
  target : U64
  length : BitVec 32
  flow : FlowType
  hasTarget : Bool
  deriving DecidableEq

def Facts.branchTarget (f : Facts) : Option U64 := if f.hasTarget then some f.target else none

abbrev Decode := U64 → Option Facts

/-- The address after the instruction. -/
def next (addr : U64) (insn : Facts) : U64 := addr + insn.length.zeroExtend 64

def pushReferences (addr : U64) (insn : Facts) : List Reference :=
  match insn.flow with
  | .call => (insn.branchTarget.toList.map fun t => ⟨addr, t, .unconditionalCall⟩) ++
      [⟨addr, next addr insn, .fallThrough⟩]
  | .indirectCall => [⟨addr, 0, .indirectCall⟩]
  | .unconditionalJump =>
    insn.branchTarget.toList.map fun t => ⟨addr, t, .unconditionalJump⟩
  | .conditionalJump => (insn.branchTarget.toList.map fun t => ⟨addr, t, .conditionalJump⟩) ++
      [⟨addr, next addr insn, .fallThrough⟩]
  | .indirectJump => [⟨addr, 0, .indirectJump⟩]
  | .ret | .fall => []

/-- The walk of a function under way. -/
structure Walk where
  queue : List U64
  blocks : Finset U64
  visited : Finset U64
  body : List (U64 × BitVec 32)
  callTargets : List U64
  references : List Reference

namespace Walk

def pushBlock (w : Walk) (start : U64) : Walk :=
  if start ∈ w.blocks then w else { w with queue := w.queue ++ [start] }

def pushTarget (w : Walk) (insn : Facts) : Walk :=
  match insn.branchTarget with
  | some t => w.pushBlock t
  | none => w

def pushCall (w : Walk) (insn : Facts) : Walk :=
  match insn.branchTarget with
  | some t => { w with callTargets := w.callTargets ++ [t] }
  | none => w

def visit (w : Walk) (addr : U64) (insn : Facts) : Walk :=
  { w with
    visited := insert addr w.visited
    body := w.body ++ [(addr, insn.length)]
    references := w.references ++ pushReferences addr insn }

end Walk

def walkBlock (decode : Decode) (start : U64) : ℕ → U64 → Walk → Walk
  | 0, _, w => w
  | n + 1, addr, w =>
    if addr ∈ w.visited ∧ addr ≠ start then w
    else
      match decode addr with
      | none => w
      | some insn =>
        let w := w.visit addr insn
        match insn.flow with
        | .call => walkBlock decode start n (next addr insn) (w.pushCall insn)
        | .indirectCall | .fall => walkBlock decode start n (next addr insn) w
        | .unconditionalJump => w.pushTarget insn
        | .conditionalJump => (w.pushTarget insn).pushBlock (next addr insn)
        | .indirectJump | .ret => w

def maxInsns : ℕ := 10000

section Pushes

variable (w : Walk) (insn : Facts) (a : U64)

@[simp] theorem pushBlock_blocks : (w.pushBlock a).blocks = w.blocks := by
  simp only [Walk.pushBlock]
  split <;> rfl

@[simp] theorem pushBlock_visited : (w.pushBlock a).visited = w.visited := by
  simp only [Walk.pushBlock]
  split <;> rfl

@[simp] theorem pushBlock_body : (w.pushBlock a).body = w.body := by
  simp only [Walk.pushBlock]
  split <;> rfl

@[simp] theorem pushBlock_callTargets : (w.pushBlock a).callTargets = w.callTargets := by
  simp only [Walk.pushBlock]
  split <;> rfl

@[simp] theorem pushTarget_blocks : (w.pushTarget insn).blocks = w.blocks := by
  simp only [Walk.pushTarget]
  split <;> simp

@[simp] theorem pushTarget_visited : (w.pushTarget insn).visited = w.visited := by
  simp only [Walk.pushTarget]
  split <;> simp

@[simp] theorem pushTarget_body : (w.pushTarget insn).body = w.body := by
  simp only [Walk.pushTarget]
  split <;> simp

@[simp] theorem pushTarget_callTargets : (w.pushTarget insn).callTargets = w.callTargets := by
  simp only [Walk.pushTarget]
  split <;> simp

@[simp] theorem pushCall_blocks : (w.pushCall insn).blocks = w.blocks := by
  simp only [Walk.pushCall]
  split <;> rfl

@[simp] theorem pushCall_visited : (w.pushCall insn).visited = w.visited := by
  simp only [Walk.pushCall]
  split <;> rfl

@[simp] theorem pushCall_body : (w.pushCall insn).body = w.body := by
  simp only [Walk.pushCall]
  split <;> rfl

end Pushes

theorem walkBlock_blocks (decode : Decode) (start : U64) (n : ℕ) (addr : U64) (w : Walk) :
    (walkBlock decode start n addr w).blocks = w.blocks := by
  induction n generalizing addr w with
  | zero => rfl
  | succ n ih =>
    simp only [walkBlock]
    split
    · rfl
    · split
      · rfl
      · split <;> simp [ih, Walk.visit]

theorem card_insert_lt {s : Finset U64} {a : U64} (h : a ∉ s) :
    Fintype.card U64 - (insert a s).card < Fintype.card U64 - s.card := by
  have hle : (insert a s).card ≤ Fintype.card U64 := Finset.card_le_univ _
  rw [Finset.card_insert_of_notMem h] at hle ⊢
  omega

def walkBlocks (decode : Decode) (w : Walk) : Walk :=
  match _hq : w.queue with
  | [] => w
  | start :: rest =>
    if _hb : start ∈ w.blocks then walkBlocks decode { w with queue := rest }
    else walkBlocks decode (walkBlock decode start maxInsns start
      { w with queue := rest, blocks := insert start w.blocks })
termination_by (Fintype.card U64 - w.blocks.card, w.queue.length)
decreasing_by
  · simp only [_hq]
    exact Prod.Lex.right _ (Nat.lt_succ_self rest.length)
  · simp only [walkBlock_blocks]
    exact Prod.Lex.left _ _ (card_insert_lt _hb)

section Blocks

variable {decode : Decode} {w : Walk} {start : U64} {rest : List U64}

theorem walkBlocks_nil (hq : w.queue = []) : walkBlocks decode w = w := by
  rw [walkBlocks]
  split
  · rfl
  · rename_i hcons
    simp [hq] at hcons

theorem walkBlocks_seen (hq : w.queue = start :: rest) (hb : start ∈ w.blocks) :
    walkBlocks decode w = walkBlocks decode { w with queue := rest } := by
  rw [walkBlocks]
  split
  · rename_i hnil
    simp [hq] at hnil
  · rename_i hcons
    obtain ⟨rfl, rfl⟩ := List.cons.inj (hq.symm.trans hcons)
    rw [dif_pos hb]

theorem walkBlocks_block (hq : w.queue = start :: rest) (hb : start ∉ w.blocks) :
    walkBlocks decode w = walkBlocks decode (walkBlock decode start maxInsns start
      { w with queue := rest, blocks := insert start w.blocks }) := by
  rw [walkBlocks]
  split
  · rename_i hnil
    simp [hq] at hnil
  · rename_i hcons
    obtain ⟨rfl, rfl⟩ := List.cons.inj (hq.symm.trans hcons)
    rw [dif_neg hb]

theorem walkBlocks_keeps {K : Walk → Prop}
    (hqueue : ∀ w queue blocks, K w → K { w with queue := queue, blocks := blocks })
    (hblock : ∀ w start, K w → K (walkBlock decode start maxInsns start w))
    (h : K w) : K (walkBlocks decode w) := by
  induction w using walkBlocks.induct decode with
  | case1 w hq =>
    rw [walkBlocks_nil hq]
    exact h
  | case2 w start rest hq hb ih =>
    rw [walkBlocks_seen hq hb]
    exact ih (hqueue w rest w.blocks h)
  | case3 w start rest hq hb ih =>
    rw [walkBlocks_block hq hb]
    exact ih (hblock _ start (hqueue w rest _ h))

end Blocks

/-- Equal neighbours once. -/
def dedup {α : Type} [DecidableEq α] : List α → List α
  | [] => []
  | [a] => [a]
  | a :: b :: l => if a = b then dedup (b :: l) else a :: dedup (b :: l)

structure Discovery where
  body : List (U64 × BitVec 32)
  callTargets : List U64
  referenceCount : ℕ
  instructionCount : ℕ

def disassembleFunction (decode : Decode) (entry : U64) (visited : Finset U64)
    (references : List Reference) : Finset U64 × List Reference × Option Discovery :=
  let w := walkBlocks decode ⟨[entry], ∅, visited, [], [], references⟩
  (w.visited, w.references,
    if w.body.length = 0 then none
    else some
      { body := w.body
        callTargets := dedup (w.callTargets.mergeSort (· ≤ ·))
        referenceCount := w.references.length - references.length
        instructionCount := w.body.length })

/-- The ranges of a body in order, each once. -/
abbrev AddressSet := List (U64 × BitVec 32)

namespace AddressSet

def rangeLe (r s : U64 × BitVec 32) : Bool := r.1 < s.1 || (r.1 == s.1 && r.2 ≤ s.2)

def ofInsns (insns : List (U64 × BitVec 32)) : AddressSet :=
  dedup (insns.mergeSort rangeLe)

/-- The last range that starts at or before `a` holds it. -/
def contains (s : AddressSet) (a : U64) : Bool :=
  match (s.filter fun r => r.1 ≤ a).getLast? with
  | some r => a.toNat < min (r.1.toNat + r.2.toNat) (2 ^ 64 - 1)
  | none => false

end AddressSet

structure Function where
  entryPoint : U64
  name : String
  body : AddressSet
  callTargets : List U64

abbrev Listing := OrdMap U64 Function

def hexName (entry : U64) : String :=
  let digits := Nat.toDigits 16 entry.toNat
  "FUN_" ++ String.ofList (List.replicate (8 - digits.length) '0' ++ digits)

def maxFunctions : ℕ := 50000

def maxInstructions : ℕ := 5000000

/-- A function walked: its entry, its instructions and the targets of its calls. -/
abbrev Walked := U64 × List (U64 × BitVec 32) × List U64

/-- The discovery under way. -/
structure Search where
  listing : Listing
  queue : List U64
  visited : Finset U64
  references : List Reference
  bodies : List Walked
  functionsFound : ℕ
  referencesFound : ℕ
  instructionsDecoded : ℕ

def needsBody (listing : Listing) (entry : U64) : Bool :=
  match listing.get? entry with
  | some f => f.body.isEmpty
  | none => false

/-- The calls found that are neither walked nor listed. -/
def pushCalls (visited : Finset U64) (listing : Listing) (queue calls : List U64) : List U64 :=
  queue ++ calls.filter fun t => t ∉ visited ∧ (listing.get? t).isNone

def Search.enter (decode : Decode) (primaryAt : U64 → Option String) (s : Search)
    (entry : U64) : Search :=
  if entry ∈ s.visited then s
  else if (s.listing.get? entry).isSome ∧ ¬ needsBody s.listing entry then s
  else
    match disassembleFunction decode entry s.visited s.references with
    | (visited, references, none) =>
      { s with
        visited := visited
        references := references }
    | (visited, references, some d) =>
      let listing :=
        if needsBody s.listing entry then s.listing
        else s.listing.insert entry
          ⟨entry, (primaryAt entry).getD (hexName entry), [], []⟩
      { listing := listing
        queue := pushCalls visited listing s.queue d.callTargets
        visited := visited
        references := references
        bodies := s.bodies ++ [(entry, d.body, d.callTargets)]
        functionsFound := s.functionsFound + if needsBody s.listing entry then 0 else 1
        referencesFound := s.referencesFound + d.referenceCount
        instructionsDecoded := s.instructionsDecoded + d.instructionCount }

def setBody (listing : Listing) (w : Walked) : Listing :=
  match listing.get? w.1 with
  | some f => listing.insert w.1
      { f with
        body := AddressSet.ofInsns w.2.1
        callTargets := w.2.2 }
  | none => listing

def setWalked (listing : Listing) (walked : List Walked) : Listing :=
  walked.foldl setBody listing

end FunctionDiscovery
