import Mathlib.Data.List.TakeWhile
import Reargo.ControlFlow

/-!
# Instruction flow through the blocks

The two builders cut a list of instructions into the same runs. Which steps from instruction to
instruction the edges between the blocks keep depends on where the leaders fall: a block is
known by its leader, not by the address of its first instruction.
-/
namespace InstructionFlow

open PcodeModel OrderedMap ControlFlow List Option
open LiftedInstruction (address)

/-- For each leader how many instructions come before its run, and how many are in it. -/
def runLengths : List U64 → List LiftedInstruction → List (ℕ × ℕ)
  | [], _ => []
  | leader :: leaders, insns =>
    let next := leaders.head?.getD (BitVec.allOnes 64)
    let skipped := insns.takeWhile fun insn => insn.address < leader
    let rest := insns.dropWhile fun insn => insn.address < leader
    let taken := rest.takeWhile fun insn => insn.address < next
    (skipped.length, taken.length) :: runLengths leaders (rest.drop taken.length)

def moveRuns : List (U64 × ℕ × ℕ) → List LiftedInstruction → List (U64 × List LiftedInstruction)
  | [], _ => []
  | (leader, skip, take) :: lengths, insns =>
    let rest := insns.drop skip
    let run := rest.take take
    if run = [] then moveRuns lengths (rest.drop take)
    else (leader, run) :: moveRuns lengths (rest.drop take)

def inAddressOrder : List LiftedInstruction → Bool
  | first :: second :: rest => first.address ≤ second.address && inAddressOrder (second :: rest)
  | _ => true

def buildInnerOwned (instructions : List LiftedInstruction) (entryAddr : U64) : ControlFlowGraph :=
  finalizeCfg (runs (computeLeaders instructions) instructions) entryAddr

def buildOwned (instructions : List LiftedInstruction) : ControlFlowGraph :=
  match instructions with
  | [] => emptyCfg
  | first :: _ =>
    if inAddressOrder instructions then
      let leaders := computeLeaders instructions
      finalizeCfg (moveRuns (leaders.zip (runLengths leaders instructions)) instructions)
        first.address
    else buildInnerOwned instructions first.address

/-- The addresses a block may start at. -/
def IsLeader (insns : List LiftedInstruction) (a : U64) : Prop :=
  insns.head?.map address = some a ∨ ∃ insn ∈ insns, a ∈ leadersOf insn

/-- No leader lies above the first address up to the second. -/
def SameRun (insns : List LiftedInstruction) (a b : U64) : Prop :=
  a ≤ b ∧ ∀ l, IsLeader insns l → l ≤ b → l ≤ a

structure LastOfRun (insns : List LiftedInstruction) (insn last : LiftedInstruction) : Prop where
  mem : last ∈ insns
  run : SameRun insns insn.address last.address
  last : ∀ x ∈ insns, SameRun insns insn.address x.address → x.address ≤ last.address

structure StartsRun (insns : List LiftedInstruction) (l : U64) (insn : LiftedInstruction) :
    Prop where
  leader : IsLeader insns l
  run : SameRun insns l insn.address
  first : ∀ x ∈ insns, l ≤ x.address → insn.address ≤ x.address

/-- No instruction starts between the two. -/
def Adjacent (insns : List LiftedInstruction) (i j : LiftedInstruction) : Prop :=
  i.address < j.address ∧ ∀ x ∈ insns, x.address ≤ i.address ∨ j.address ≤ x.address

/-- The last operations neither jump away nor end the flow. -/
def fallsThrough (insn : LiftedInstruction) : Bool :=
  !hasOp .branchInd insn && !hasOp .return insn && !isTrap insn &&
    (!hasOp .branch insn || hasOp .cBranch insn)

/-- The addresses an instruction at the end of a block hands the flow to. -/
def exitsOf (insn : LiftedInstruction) : List U64 :=
  if hasOp .branchInd insn then insn.ops.flatMap switchTargets
  else if hasOp .return insn || isTrap insn then []
  else if hasOp .branch insn && !hasOp .cBranch insn then (branchTarget insn).toList
  else if hasOp .cBranch insn then (branchTarget insn).toList ++ [endAddrOf insn]
  else [endAddrOf insn]

/-- Ascending addresses, no sum of an address and a length past the last one. -/
structure Ordered (insns : List LiftedInstruction) : Prop where
  ascending : insns.Pairwise fun i j => i.address < j.address
  fits : ∀ i ∈ insns, i.address.toNat + i.length < 2 ^ 64

/-- The blocks against the instructions they are made from. -/
structure RefinesFlow (insns : List LiftedInstruction) (cfg : ControlFlowGraph) : Prop where
  /-- Every instruction lies in one block, and in order. -/
  once : cfg.blocks.flatMap BasicBlock.instructions = insns
  falls : ∀ i ∈ insns, ∀ j ∈ insns, fallsThrough i = true → j.address = endAddrOf i →
    (∃ b, [i, j] <:+: (cfg.block b).instructions) ∨
      ∃ b s, i ∈ (cfg.block b).instructions ∧ (cfg.block s).instructions.head? = some j ∧
        s ∈ cfg.succs b
  jumps : ∀ i ∈ insns, ∀ k ∈ insns, k.address ∈ i.ops.flatMap branchLeader →
    ∃ b s, i ∈ (cfg.block b).instructions ∧ k ∈ (cfg.block s).instructions ∧ s ∈ cfg.succs b
  mirror : ∀ b s, b ∈ cfg.preds s ↔ s ∈ cfg.succs b
  nodup : ∀ s, (cfg.preds s).Nodup

/-- Where no edge is lost: a jump into an instruction leaves the instruction after it a leader,
the run of an instruction overlapped by others ends with one that hands the flow on in its place,
and so does the run of a jump. -/
structure EdgesKept (insns : List LiftedInstruction) : Prop where
  reached : ∀ i ∈ insns, i.address ≠ BitVec.allOnes 64
  falls : ∀ i ∈ insns, ∀ j ∈ insns, fallsThrough i = true → j.address = endAddrOf i →
    Adjacent insns i j → SameRun insns i.address j.address ∨ IsLeader insns j.address
  overlaps : ∀ i ∈ insns, ∀ j ∈ insns, fallsThrough i = true → j.address = endAddrOf i →
    ¬ Adjacent insns i j → ∃ m, LastOfRun insns i m ∧ ∃ l ∈ exitsOf m, StartsRun insns l j
  jumps : ∀ i ∈ insns, ∀ k ∈ insns, k.address ∈ i.ops.flatMap branchLeader →
    ∃ m, LastOfRun insns i m ∧ k.address ∈ exitsOf m

variable {insns : List LiftedInstruction} {b : ℕ} {a : U64} {α : Type} {m : LiftedInstruction}

theorem mem_computeLeaders : a ∈ computeLeaders insns ↔ IsLeader insns a := by
  unfold computeLeaders IsLeader
  rw [mem_dedup, mem_mergeSort, mem_append, mem_flatMap, mem_toList]

theorem sorted_computeLeaders (insns : List LiftedInstruction) :
    (computeLeaders insns).Pairwise (· < ·) := by
  unfold computeLeaders
  generalize (insns.head?.map address).toList ++ insns.flatMap leadersOf = l
  have hle : l.mergeSort.Pairwise fun a b => decide (a ≤ b) = true := by
    refine pairwise_mergeSort ?_ ?_ l
    · intro a b c hab hbc
      rw [decide_eq_true_eq] at hab hbc ⊢
      exact le_trans hab hbc
    · intro a b
      rw [Bool.or_eq_true, decide_eq_true_eq, decide_eq_true_eq]
      exact le_total a b
  have hnodup : l.mergeSort.dedup.Pairwise (· ≠ ·) := nodup_dedup _
  refine ((hle.sublist (dedup_sublist _)).and hnodup).imp fun h => ?_
  have hle' := of_decide_eq_true h.1
  have hne := h.2
  bv_omega

theorem takeRun_eq (leader next : U64) (h : insns.Pairwise fun i j => i.address ≤ j.address) :
    takeRun leader next insns =
      ((insns.dropWhile fun i => i.address < leader).takeWhile fun i => i.address < next,
        (insns.dropWhile fun i => i.address < leader).dropWhile fun i => i.address < next) := by
  induction insns with
  | nil => rfl
  | cons insn rest ih =>
    have hrest := ih h.of_cons
    unfold takeRun
    by_cases hskip : insn.address < leader
    · rw [if_pos hskip, dropWhile_cons_of_pos (by simpa using hskip)]
      exact hrest
    · rw [if_neg hskip, dropWhile_cons_of_neg (by simpa using hskip)]
      by_cases hend : insn.address ≥ next
      · have hnot : ¬ insn.address < next := not_lt.mpr hend
        rw [if_pos hend, takeWhile_cons_of_neg (by simpa using hnot),
          dropWhile_cons_of_neg (by simpa using hnot)]
      · have hlt : insn.address < next := not_le.mp hend
        -- nothing after this instruction is below the leader
        have hkeep : rest.dropWhile (fun i => decide (i.address < leader)) = rest := by
          cases rest with
          | nil => rfl
          | cons r rest =>
            have hle := rel_of_pairwise_cons h (mem_cons_self (a := r) (l := rest))
            have hr : ¬ r.address < leader := fun hlt => hskip (by bv_omega)
            rw [dropWhile_cons_of_neg (by simpa using hr)]
        rw [hkeep] at hrest
        rw [if_neg hend, hrest, takeWhile_cons_of_pos (by simpa using hlt),
          dropWhile_cons_of_pos (by simpa using hlt)]

theorem drop_length_takeWhile (p : α → Bool) (l : List α) :
    l.drop (l.takeWhile p).length = l.dropWhile p := by
  conv => lhs; rw [← takeWhile_append_dropWhile (p := p) (l := l)]
  rw [drop_left']
  simp

theorem take_length_takeWhile (p : α → Bool) (l : List α) :
    l.take (l.takeWhile p).length = l.takeWhile p :=
  (prefix_iff_eq_take.mp (List.takeWhile_prefix p)).symm

theorem moveRuns_eq (leaders : List U64) (insns : List LiftedInstruction)
    (h : insns.Pairwise fun i j => i.address ≤ j.address) :
    moveRuns (leaders.zip (runLengths leaders insns)) insns = runs leaders insns := by
  induction leaders generalizing insns with
  | nil => rfl
  | cons leader leaders ih =>
    unfold runLengths runs
    simp only [zip_cons_cons]
    unfold moveRuns
    rw [takeRun_eq _ _ h]
    simp only [drop_length_takeWhile, take_length_takeWhile]
    have hsub : ((insns.dropWhile fun i => decide (i.address < leader)).dropWhile fun i =>
        decide (i.address < leaders.head?.getD (BitVec.allOnes 64))).Pairwise
          fun i j => i.address ≤ j.address :=
      h.sublist ((dropWhile_sublist _).trans (dropWhile_sublist _))
    rw [ih _ hsub]

theorem pairwise_of_inAddressOrder
    (h : inAddressOrder insns = true) : insns.Pairwise fun i j => i.address ≤ j.address := by
  induction insns with
  | nil => exact List.Pairwise.nil
  | cons first rest ih =>
    cases rest with
    | nil => exact pairwise_singleton _ _
    | cons second rest =>
      unfold inAddressOrder at h
      rw [Bool.and_eq_true, decide_eq_true_eq] at h
      have hrest := ih h.2
      refine pairwise_cons.mpr ⟨fun x hx => ?_, hrest⟩
      rcases mem_cons.mp hx with rfl | hx
      · exact h.1
      · exact le_trans h.1 (rel_of_pairwise_cons hrest hx)

theorem build_eq_buildOwned (insns : List LiftedInstruction) :
    ControlFlowGraph.build insns = buildOwned insns := by
  cases insns with
  | nil => rfl
  | cons first rest =>
    unfold ControlFlowGraph.build buildOwned
    simp only
    split
    · next h => rw [moveRuns_eq _ _ (pairwise_of_inAddressOrder h)]
    · rfl

structure Cut (insns : List LiftedInstruction) (rs : List (U64 × List LiftedInstruction)) :
    Prop where
  all : rs.flatMap Prod.snd = insns
  nonempty : ∀ r ∈ rs, r.2 ≠ []
  leads : ∀ r ∈ rs, ∀ x ∈ r.2, IsLeader insns r.1 ∧ SameRun insns r.1 x.address
  keys : (rs.map Prod.fst).Pairwise (· < ·)

theorem runs_spec (leaders : List U64) (insns : List LiftedInstruction)
    (hleaders : leaders.Pairwise (· < ·))
    (hinsns : insns.Pairwise fun i j => i.address < j.address)
    (hbelow : ∀ x ∈ insns, x.address < BitVec.allOnes 64)
    (hfrom : ∀ x ∈ insns, ∃ l, leaders.head? = some l ∧ l ≤ x.address) :
    (runs leaders insns).flatMap Prod.snd = insns ∧
      (∀ r ∈ runs leaders insns, r.2 ≠ [] ∧ ∀ x ∈ r.2, r.1 ∈ leaders ∧ r.1 ≤ x.address ∧
        ∀ l ∈ leaders, l ≤ x.address → l ≤ r.1) ∧
      ((runs leaders insns).map Prod.fst).Sublist leaders := by
  induction leaders generalizing insns with
  | nil =>
    have hnil : insns = [] := by
      refine eq_nil_iff_forall_not_mem.mpr fun x hx => ?_
      obtain ⟨l, hl, -⟩ := hfrom x hx
      cases hl
    rw [hnil]
    exact ⟨rfl, fun r hr => absurd hr not_mem_nil, List.Sublist.refl _⟩
  | cons leader leaders ih =>
    have hle : insns.Pairwise fun i j => i.address ≤ j.address := hinsns.imp fun h => by bv_omega
    have hskip : insns.dropWhile (fun i => decide (i.address < leader)) = insns := by
      cases insns with
      | nil => rfl
      | cons x rest =>
        obtain ⟨l, hl, hlx⟩ := hfrom x mem_cons_self
        obtain rfl := some.inj hl
        rw [dropWhile_cons_of_neg (by simpa using hlx)]
    unfold runs
    simp only [takeRun_eq _ _ hle, hskip]
    generalize hnext : leaders.head?.getD (BitVec.allOnes 64) = next
    have hcut := takeWhile_append_dropWhile (p := fun i : LiftedInstruction =>
      decide (i.address < next)) (l := insns)
    have hrun : ∀ x ∈ insns.takeWhile (fun i => decide (i.address < next)), x.address < next := by
      intro x hx
      have hlt := mem_takeWhile_imp hx
      exact of_decide_eq_true hlt
    have hleft : ∀ x ∈ insns.dropWhile (fun i => decide (i.address < next)), next ≤ x.address :=
      fun x hx => not_lt.mp (of_decide_eq_false
        (dropWhile_false (front_of_lt hle fun _ => decide_eq_true_iff) x hx))
    have hlast : ∀ l ∈ leaders, next ≤ l := by
      intro l hl
      cases leaders with
      | nil => exact absurd hl not_mem_nil
      | cons n leaders =>
        rw [← hnext]
        rcases mem_cons.mp hl with rfl | hl
        · exact le_refl _
        · have hlt := rel_of_pairwise_cons hleaders.of_cons hl
          exact le_of_lt hlt
    obtain ⟨hall, hspec, hkeys⟩ := ih (insns.dropWhile fun i => decide (i.address < next))
      hleaders.of_cons (hinsns.sublist (dropWhile_sublist _))
      (fun x hx => hbelow x ((dropWhile_sublist _).subset hx)) (by
        intro x hx
        cases hh : leaders.head? with
        | some l =>
          rw [hh] at hnext
          have hge := hleft x hx
          rw [← hnext] at hge
          exact ⟨l, rfl, hge⟩
        | none =>
          rw [hh] at hnext
          have hx' := hbelow x ((dropWhile_sublist _).subset hx)
          have hge := hleft x hx
          rw [← hnext] at hge
          exact absurd hx' (not_lt.mpr hge))
    -- what the other runs say, with this leader below them
    have hspec' : ∀ r ∈ runs leaders (insns.dropWhile fun i => decide (i.address < next)),
        r.2 ≠ [] ∧ ∀ x ∈ r.2, r.1 ∈ leader :: leaders ∧ r.1 ≤ x.address ∧
          ∀ l ∈ leader :: leaders, l ≤ x.address → l ≤ r.1 := by
      intro r hr
      obtain ⟨hne, hx⟩ := hspec r hr
      refine ⟨hne, fun x hxr => ?_⟩
      obtain ⟨hmem, hlx, hmax⟩ := hx x hxr
      refine ⟨mem_cons_of_mem _ hmem, hlx, fun l hl hlx' => ?_⟩
      rcases mem_cons.mp hl with rfl | hl
      · exact le_of_lt (rel_of_pairwise_cons hleaders hmem)
      · exact hmax l hl hlx'
    split
    · next hempty =>
      rw [hempty, nil_append] at hcut
      exact ⟨hall.trans hcut, hspec', hkeys.cons _⟩
    · next hne =>
      refine ⟨?_, fun r hr => ?_, hkeys.cons_cons _⟩
      · rw [flatMap_cons, hall]
        exact hcut
      · rcases mem_cons.mp hr with rfl | hr
        · refine ⟨hne, fun x hx => ⟨mem_cons_self, ?_, fun l hl hlx => ?_⟩⟩
          · obtain ⟨l, hl, hlx⟩ := hfrom x ((takeWhile_sublist _).subset hx)
            obtain rfl := some.inj hl
            exact hlx
          · rcases mem_cons.mp hl with rfl | hl
            · exact le_refl _
            · have hge := hlast l hl
              have hlt := hrun x hx
              bv_omega
        · exact hspec' r hr

theorem cut_runs (h : Ordered insns) (hreached : ∀ x ∈ insns, x.address ≠ BitVec.allOnes 64) :
    Cut insns (runs (computeLeaders insns) insns) := by
  have hfrom : ∀ x ∈ insns, ∃ l, (computeLeaders insns).head? = some l ∧ l ≤ x.address := by
    intro x hx
    cases insns with
    | nil => exact absurd hx not_mem_nil
    | cons first rest =>
      have hmem : first.address ∈ computeLeaders (first :: rest) :=
        mem_computeLeaders.mpr (.inl rfl)
      have hsorted := sorted_computeLeaders (first :: rest)
      generalize computeLeaders (first :: rest) = leaders at hmem hsorted
      cases leaders with
      | nil => exact absurd hmem not_mem_nil
      | cons l leaders =>
        refine ⟨l, rfl, ?_⟩
        have hfirst : l ≤ first.address := by
          rcases mem_cons.mp hmem with heq | hmem
          · subst heq
            exact le_refl _
          · exact le_of_lt (rel_of_pairwise_cons hsorted hmem)
        rcases mem_cons.mp hx with rfl | hx
        · exact hfirst
        · have hlt := rel_of_pairwise_cons h.ascending hx
          bv_omega
  have hbelow : ∀ x ∈ insns, x.address < BitVec.allOnes 64 := by
    intro x hx
    have hne := hreached x hx
    rw [show BitVec.allOnes 64 = 0xffffffffffffffff#64 from rfl] at hne ⊢
    bv_omega
  obtain ⟨hall, hspec, hkeys⟩ :=
    runs_spec _ insns (sorted_computeLeaders insns) h.ascending hbelow hfrom
  refine ⟨hall, fun r hr => (hspec r hr).1, fun r hr x hx => ?_,
    (sorted_computeLeaders insns).sublist hkeys⟩
  obtain ⟨hmem, hle, hmax⟩ := (hspec r hr).2 x hx
  exact ⟨mem_computeLeaders.mp hmem, hle, fun l hl => hmax l (mem_computeLeaders.mpr hl)⟩

theorem map_linkPreds (f : BasicBlock → α)
    (hf : ∀ (b : BasicBlock) (ps : List ℕ), f { b with predecessors := ps } = f b)
    (blocks : List BasicBlock) : (linkPreds blocks).map f = blocks.map f := by
  unfold linkPreds
  generalize edgesOf blocks = edges
  induction edges generalizing blocks with
  | nil => rfl
  | cons e edges ih =>
    rw [foldl_cons, ih]
    unfold linkPred
    refine ext_getElem? fun i => ?_
    rw [getElem?_map, getElem?_map, getElem?_modify]
    cases blocks[i]? with
    | none => rfl
    | some b =>
      by_cases hi : e.2 = i
      · simp [hi, hf]
      · simp [hi]

theorem getD_map_block (cfg : ControlFlowGraph) (f : BasicBlock → α) (b : ℕ) :
    f (cfg.block b) = (cfg.blocks.map f).getD b (f default) := by
  unfold ControlFlowGraph.block
  rw [getD_eq_getElem?_getD, getD_eq_getElem?_getD, getElem?_map]
  cases cfg.blocks[b]? with
  | none => rfl
  | some _ => rfl

section Graph

variable {insns : List LiftedInstruction} {rs : List (U64 × List LiftedInstruction)}
  {entry : U64} {r : U64 × List LiftedInstruction}

theorem map_instructions (rs : List (U64 × List LiftedInstruction)) (entry : U64) :
    (finalizeCfg rs entry).blocks.map BasicBlock.instructions = rs.map Prod.snd := by
  refine (map_linkPreds _ (fun _ _ => rfl) _).trans ?_
  rw [List.map_map]
  refine List.ext_getElem? fun i => ?_
  rw [List.getElem?_map, List.getElem?_map, List.getElem?_zipIdx]
  cases rs[i]? with
  | none => rfl
  | some _ => rfl

theorem instructions_block (hr : rs[b]? = some r) :
    ((finalizeCfg rs entry).block b).instructions = r.2 := by
  rw [getD_map_block _ BasicBlock.instructions, map_instructions, getD_eq_getElem?_getD,
    getElem?_map, hr]
  rfl

theorem exists_run_of_mem {x : LiftedInstruction}
    (hx : x ∈ ((finalizeCfg rs entry).block b).instructions) : ∃ r, rs[b]? = some r ∧ x ∈ r.2 := by
  rw [getD_map_block _ BasicBlock.instructions, map_instructions, getD_eq_getElem?_getD,
    getElem?_map] at hx
  cases hr : rs[b]? with
  | none =>
    rw [hr] at hx
    exact absurd hx not_mem_nil
  | some r =>
    rw [hr] at hx
    exact ⟨r, rfl, hx⟩

theorem succs_block (hr : rs[b]? = some r) (hm : r.2.getLast? = some m) :
    (finalizeCfg rs entry).succs b = successorsOf (indexOf rs) m := by
  unfold ControlFlowGraph.succs
  rw [getD_map_block _ BasicBlock.successors,
    show (finalizeCfg rs entry).blocks.map BasicBlock.successors = _ from
      map_linkPreds _ (fun _ _ => rfl) _, List.map_map, List.getD_eq_getElem?_getD,
    List.getElem?_map, List.getElem?_zipIdx, hr]
  simp only [map_some, getD_some, Function.comp_apply, blockOf, hm]

theorem mem_successorsOf_iff {index : AddrIndex} {s : ℕ} :
    s ∈ successorsOf index m ↔ ∃ a ∈ exitsOf m, index.get a = some s := by
  have hopt : ∀ o : Option U64, s ∈ ((o.bind index.get).toList) ↔
      ∃ a ∈ o.toList, index.get a = some s := by
    intro o
    rw [mem_toList, bind_eq_some_iff]
    simp only [mem_toList]
  have hend : s ∈ (index.get (endAddrOf m)).toList ↔ ∃ a ∈ [endAddrOf m], index.get a = some s := by
    rw [mem_toList]
    simp
  unfold successorsOf exitsOf
  simp only
  split
  · rw [mem_foldl_pushNew, mem_filterMap]
    simp
  · split
    · simp
    · split
      · exact hopt _
      · split
        · rw [mem_append, hopt, hend]
          simp only [mem_append]
          constructor
          · rintro (⟨a, ha, hs⟩ | ⟨a, ha, hs⟩)
            · exact ⟨a, .inl ha, hs⟩
            · exact ⟨a, .inr ha, hs⟩
          · rintro ⟨a, ha | ha, hs⟩
            · exact .inl ⟨a, ha, hs⟩
            · exact .inr ⟨a, ha, hs⟩
        · exact hend

end Graph

section Runs

variable {insns : List LiftedInstruction} {rs : List (U64 × List LiftedInstruction)}

theorem SameRun.trans {b c : U64} (h : SameRun insns a b) (k : SameRun insns b c) :
    SameRun insns a c :=
  ⟨le_trans h.1 k.1, fun l hl hlc => h.2 l hl (k.2 l hl hlc)⟩

theorem SameRun.unique {l l' : U64} (hl : IsLeader insns l) (hl' : IsLeader insns l')
    (h : SameRun insns l a) (h' : SameRun insns l' a) : l = l' := by
  have hle := h.2 l' hl' h'.1
  have hge := h'.2 l hl h.1
  exact le_antisymm hge hle

theorem eq_of_address {l : List LiftedInstruction}
    (h : l.Pairwise fun i j => i.address < j.address) {x y : LiftedInstruction} (hx : x ∈ l)
    (hy : y ∈ l) (heq : x.address = y.address) : x = y := by
  induction l with
  | nil => exact absurd hx not_mem_nil
  | cons z l ih =>
    rcases mem_cons.mp hx with hxz | hx'
    · rcases mem_cons.mp hy with hyz | hy'
      · rw [hxz, hyz]
      · have hlt := rel_of_pairwise_cons h hy'
        rw [← hxz, heq] at hlt
        exact absurd hlt (lt_irrefl _)
    · rcases mem_cons.mp hy with hyz | hy'
      · have hlt := rel_of_pairwise_cons h hx'
        rw [← hyz, heq] at hlt
        exact absurd hlt (lt_irrefl _)
      · exact ih h.of_cons hx' hy'

section Cut

variable (h : Cut insns rs)
include h

theorem Cut.key_inj {c : ℕ} {r r' : U64 × List LiftedInstruction} (hb : rs[b]? = some r)
    (hc : rs[c]? = some r') (hkey : r.1 = r'.1) : b = c := by
  obtain ⟨hlt, rfl⟩ := List.getElem?_eq_some_iff.mp hb
  obtain ⟨hlt', rfl⟩ := List.getElem?_eq_some_iff.mp hc
  have hkeys := pairwise_iff_getElem.mp h.keys
  by_contra hne
  rcases Nat.lt_or_gt_of_ne hne with hlt'' | hlt''
  · have hk := hkeys b c (by simpa using hlt) (by simpa using hlt') hlt''
    rw [getElem_map, getElem_map, hkey] at hk
    exact lt_irrefl _ hk
  · have hk := hkeys c b (by simpa using hlt') (by simpa using hlt) hlt''
    rw [getElem_map, getElem_map, hkey] at hk
    exact lt_irrefl _ hk

theorem Cut.get_iff {s : ℕ} : (indexOf rs).get a = some s ↔ ∃ r, rs[s]? = some r ∧ r.1 = a := by
  have hsound : ∀ s, (indexOf rs).get a = some s → ∃ r, rs[s]? = some r ∧ r.1 = a := by
    intro s hs
    have hmem := mem_of_get hs
    unfold indexOf at hmem
    obtain ⟨⟨r, i⟩, hr, he⟩ := mem_map.mp hmem
    rw [mem_zipIdx_iff_getElem?] at hr
    obtain ⟨rfl, rfl⟩ := Prod.mk.inj he
    exact ⟨r, hr, rfl⟩
  refine ⟨hsound s, ?_⟩
  rintro ⟨r, hr, rfl⟩
  cases hget : (indexOf rs).get r.1 with
  | some t =>
    obtain ⟨r', hr', hkey⟩ := hsound t hget
    rw [h.key_inj hr hr' hkey.symm]
  | none =>
    unfold AddrIndex.get at hget
    have hnone := lookup_eq_none_iff.mp hget (r.1, s)
      (mem_map.mpr ⟨(r, s), mem_zipIdx_iff_getElem?.mpr hr, rfl⟩)
    simp at hnone

variable {x : LiftedInstruction}

theorem Cut.exists_run (hx : x ∈ insns) :
    ∃ (b : ℕ) (r : U64 × List LiftedInstruction), rs[b]? = some r ∧ x ∈ r.2 := by
  rw [← h.all] at hx
  obtain ⟨r, hr, hxr⟩ := mem_flatMap.mp hx
  obtain ⟨b, hb⟩ := getElem?_of_mem hr
  exact ⟨b, r, hb, hxr⟩

variable {r : U64 × List LiftedInstruction}

theorem Cut.mem (hb : rs[b]? = some r) (hx : x ∈ r.2) : x ∈ insns := by
  rw [← h.all]
  exact mem_flatMap.mpr ⟨r, mem_of_getElem? hb, hx⟩

theorem Cut.leader (hb : rs[b]? = some r)
    (hx : x ∈ r.2) : IsLeader insns r.1 ∧ SameRun insns r.1 x.address :=
  h.leads r (mem_of_getElem? hb) x hx

theorem Cut.mem_run_iff (hb : rs[b]? = some r)
    (hx : x ∈ insns) : x ∈ r.2 ↔ SameRun insns r.1 x.address := by
  refine ⟨fun hxr => (h.leader hb hxr).2, fun hrun => ?_⟩
  obtain ⟨c, r', hc, hxr'⟩ := h.exists_run hx
  obtain ⟨hl', hrun'⟩ := h.leader hc hxr'
  obtain ⟨y, hy⟩ := exists_mem_of_ne_nil _ (h.nonempty r (mem_of_getElem? hb))
  have hkey := SameRun.unique (h.leader hb hy).1 hl' hrun hrun'
  obtain rfl := h.key_inj hb hc hkey
  rw [hb] at hc
  rw [some.inj hc]
  exact hxr'

variable (ho : Ordered insns)
include ho

theorem Cut.ascending (hb : rs[b]? = some r) : r.2.Pairwise fun i j => i.address < j.address := by
  have hall := ho.ascending
  rw [← h.all, pairwise_flatMap] at hall
  exact hall.1 r (mem_of_getElem? hb)

theorem Cut.lastOfRun_iff (hb : rs[b]? = some r) {i : LiftedInstruction} (hi : i ∈ r.2) :
    LastOfRun insns i m ↔ r.2.getLast? = some m := by
  have hasc := h.ascending ho hb
  have hruni := (h.leader hb hi).2
  obtain ⟨pre, z, hz⟩ := eq_nil_or_concat r.2 |>.resolve_left
    (h.nonempty r (mem_of_getElem? hb))
  rw [concat_eq_append] at hz
  have hzlast : r.2.getLast? = some z := by
    rw [hz]
    exact getLast?_concat ..
  have hle : ∀ x ∈ r.2, x.address ≤ z.address := by
    intro x hx
    rw [hz] at hx hasc
    rcases mem_append.mp hx with hx | hx
    · exact le_of_lt ((pairwise_append.mp hasc).2.2 x hx z (mem_singleton_self z))
    · rw [mem_singleton.mp hx]
  have hzmem : z ∈ r.2 := mem_of_getLast? hzlast
  -- what shares the run of `i` is in its list
  have hsame : ∀ x ∈ insns, SameRun insns i.address x.address → x ∈ r.2 := fun x hx hrun =>
    (h.mem_run_iff hb hx).mpr (hruni.trans hrun)
  have hof : ∀ x ∈ r.2, i.address ≤ x.address → SameRun insns i.address x.address := by
    intro x hx hix
    refine ⟨hix, fun l hl hlx => ?_⟩
    exact le_trans ((h.leader hb hx).2.2 l hl hlx) hruni.1
  rw [hzlast]
  constructor
  · intro hlast
    have hmem := hsame m hlast.mem hlast.run
    have hge := hlast.last z (h.mem hb hzmem) (hof z hzmem (hle i hi))
    exact congrArg some (eq_of_address hasc hzmem hmem (le_antisymm hge (hle m hmem)))
  · intro heq
    obtain rfl := some.inj heq
    exact ⟨h.mem hb hzmem, hof z hzmem (hle i hi), fun x hx hrun => hle x (hsame x hx hrun)⟩

theorem Cut.startsRun_iff {l : U64} {j : LiftedInstruction} (hj : j ∈ insns) :
    StartsRun insns l j ↔ ∃ (s : ℕ) (r : U64 × List LiftedInstruction), rs[s]? = some r ∧
      r.1 = l ∧ r.2.head? = some j := by
  constructor
  · intro hstart
    obtain ⟨s, r, hs, hjr⟩ := h.exists_run hj
    obtain ⟨hl, hrun⟩ := h.leader hs hjr
    have hkey := SameRun.unique hl hstart.leader hrun hstart.run
    refine ⟨s, r, hs, hkey, ?_⟩
    have hasc := h.ascending ho hs
    cases hr : r.2 with
    | nil => exact absurd hr (h.nonempty r (mem_of_getElem? hs))
    | cons y rest =>
      have hy : y ∈ r.2 := by
        rw [hr]
        exact mem_cons_self
      have hly : l ≤ y.address := hkey ▸ (h.leader hs hy).2.1
      have hge := hstart.first y (h.mem hs hy) hly
      rw [hr] at hjr hasc
      rcases mem_cons.mp hjr with rfl | hjr
      · rfl
      · exact absurd (rel_of_pairwise_cons hasc hjr) (not_lt.mpr hge)
  · rintro ⟨s, r, hs, rfl, hhead⟩
    have hjr : j ∈ r.2 := mem_of_head? hhead
    obtain ⟨hl, hrun⟩ := h.leader hs hjr
    refine ⟨hl, hrun, fun x hx hlx => ?_⟩
    by_contra hlt
    have hxj : x.address < j.address := not_le.mp hlt
    have hxr : x ∈ r.2 := (h.mem_run_iff hs hx).mpr
      ⟨hlx, fun l hl hlx' => hrun.2 l hl (le_trans hlx' (le_of_lt hxj))⟩
    have hasc := h.ascending ho hs
    cases hr : r.2 with
    | nil => exact absurd hr (h.nonempty r (mem_of_getElem? hs))
    | cons y rest =>
      rw [hr] at hhead hxr hasc
      obtain rfl := some.inj hhead
      rcases mem_cons.mp hxr with rfl | hxr
      · exact lt_irrefl _ hxj
      · have hgt := rel_of_pairwise_cons hasc hxr
        bv_omega

theorem Cut.infix_iff (hb : rs[b]? = some r)
    {i j : LiftedInstruction} (hi : i ∈ r.2) (hj : j ∈ insns) :
    [i, j] <:+: r.2 ↔ Adjacent insns i j ∧ SameRun insns i.address j.address := by
  have hasc := h.ascending ho hb
  have hruni := (h.leader hb hi).2
  constructor
  · intro hinfix
    obtain ⟨pre, post, hsplit⟩ := hinfix
    have hjr : j ∈ r.2 := by
      rw [← hsplit]
      simp
    have hrunj := (h.leader hb hjr).2
    rw [← hsplit, append_assoc, pairwise_append] at hasc
    obtain ⟨-, htail, hpre⟩ := hasc
    have hij : i.address < j.address :=
      rel_of_pairwise_cons htail (mem_cons_self (a := j) (l := post))
    refine ⟨⟨hij, fun x hx => ?_⟩, le_of_lt hij, fun l hl hlj =>
      le_trans (hrunj.2 l hl hlj) hruni.1⟩
    by_contra hbetween
    rw [not_or] at hbetween
    have hix : i.address < x.address := not_le.mp hbetween.1
    have hxj : x.address < j.address := not_le.mp hbetween.2
    have hxr : x ∈ r.2 := (h.mem_run_iff hb hx).mpr
      ⟨le_trans hruni.1 (le_of_lt hix), fun l hl hlx =>
        hrunj.2 l hl (le_trans hlx (le_of_lt hxj))⟩
    rw [← hsplit, append_assoc] at hxr
    rcases mem_append.mp hxr with hxr | hxr
    · have hlt := hpre x hxr i mem_cons_self
      bv_omega
    · rcases mem_cons.mp hxr with rfl | hxr
      · exact lt_irrefl _ hix
      · rcases mem_cons.mp hxr with rfl | hxr
        · exact lt_irrefl _ hxj
        · have hlt := rel_of_pairwise_cons htail.of_cons hxr
          bv_omega
  · rintro ⟨⟨hij, hbetween⟩, hrun⟩
    have hjr : j ∈ r.2 := (h.mem_run_iff hb hj).mpr (hruni.trans hrun)
    obtain ⟨pre, tail, hsplit⟩ := append_of_mem hi
    have hall := hasc
    rw [hsplit, pairwise_append] at hasc
    obtain ⟨-, htail, hpre⟩ := hasc
    have hjtail : j ∈ tail := by
      rw [hsplit] at hjr
      rcases mem_append.mp hjr with hjr | hjr
      · have hlt := hpre j hjr i mem_cons_self
        exact absurd hlt (by bv_omega)
      · rcases mem_cons.mp hjr with rfl | hjr
        · exact absurd hij (lt_irrefl _)
        · exact hjr
    cases tail with
    | nil => exact absurd hjtail not_mem_nil
    | cons k tail =>
      have hkr : k ∈ r.2 := by
        rw [hsplit]
        simp
      have hik := rel_of_pairwise_cons htail (mem_cons_self (a := k) (l := tail))
      have hjk : j.address ≤ k.address :=
        (hbetween k (h.mem hb hkr)).resolve_left (not_le.mpr hik)
      have hkj : k.address ≤ j.address := by
        rcases mem_cons.mp hjtail with rfl | hj'
        · exact le_refl _
        · exact le_of_lt (rel_of_pairwise_cons htail.of_cons hj')
      have heq : k = j := eq_of_address hall hkr hjr (le_antisymm hkj hjk)
      refine ⟨pre, tail, ?_⟩
      rw [hsplit, heq]
      simp

end Cut

variable {i : LiftedInstruction}

theorem isLeader_endAddrOf (hi : i ∈ insns) (h : endsBlock i = true) :
    IsLeader insns (endAddrOf i) := by
  refine .inr ⟨i, hi, ?_⟩
  unfold leadersOf
  rw [if_pos h]
  exact mem_append_right _ (mem_singleton_self _)

theorem endsBlock_of_target (h : a ∈ i.ops.flatMap branchLeader) : endsBlock i = true := by
  obtain ⟨op, hop, ha⟩ := mem_flatMap.mp h
  have hcode : op.opcode = .branch ∨ op.opcode = .cBranch := by
    by_contra hne
    unfold branchLeader at ha
    rw [if_neg hne] at ha
    exact not_mem_nil ha
  unfold endsBlock hasOp
  simp only [Bool.or_eq_true, List.any_eq_true, decide_eq_true_eq]
  rcases hcode with hb | hc
  · exact .inl (.inl (.inl (.inl ⟨op, hop, hb⟩)))
  · exact .inl (.inl (.inl (.inr ⟨op, hop, hc⟩)))

theorem isLeader_target (hi : i ∈ insns) (h : a ∈ i.ops.flatMap branchLeader) : IsLeader insns a := by
  have hends := endsBlock_of_target h
  obtain ⟨op, hop, ha⟩ := mem_flatMap.mp h
  refine .inr ⟨i, hi, ?_⟩
  unfold leadersOf
  rw [if_pos hends]
  exact mem_append_left _ (mem_flatMap.mpr ⟨op, hop, mem_append_left _ ha⟩)

theorem endAddrOf_mem_exitsOf (h : fallsThrough i = true) : endAddrOf i ∈ exitsOf i := by
  unfold fallsThrough at h
  unfold exitsOf
  cases hind : hasOp .branchInd i <;> cases hret : hasOp .return i <;> cases htrap : isTrap i <;>
    cases hb : hasOp .branch i <;> cases hc : hasOp .cBranch i <;> simp_all

theorem isLeader_end_of_exit (hi : i ∈ insns) (h : fallsThrough i = true) (ha : a ∈ exitsOf i) :
    a = endAddrOf i ∨ IsLeader insns (endAddrOf i) := by
  by_cases hc : hasOp .cBranch i = true
  · refine .inr (isLeader_endAddrOf hi ?_)
    unfold endsBlock
    simp only [Bool.or_eq_true]
    exact .inl (.inl (.inl (.inr hc)))
  · refine .inl ?_
    unfold fallsThrough at h
    unfold exitsOf at ha
    cases hind : hasOp .branchInd i <;> cases hret : hasOp .return i <;>
      cases htrap : isTrap i <;> cases hb : hasOp .branch i <;> simp_all

section Edges

variable {entry : U64} (h : Cut insns rs) (ho : Ordered insns)
include h ho

theorem Cut.succ_iff {r : U64 × List LiftedInstruction} (hb : rs[b]? = some r)
    {i : LiftedInstruction} (hi : i ∈ r.2) {s : ℕ} :
    s ∈ (finalizeCfg rs entry).succs b ↔ ∃ m, LastOfRun insns i m ∧
      ∃ a ∈ exitsOf m, ∃ r', rs[s]? = some r' ∧ r'.1 = a := by
  obtain ⟨m, hm⟩ : ∃ m, r.2.getLast? = some m :=
    ⟨_, getLast?_eq_some_getLast (ne_nil_of_mem hi)⟩
  rw [succs_block hb hm, mem_successorsOf_iff]
  simp only [h.get_iff]
  constructor
  · intro hs
    exact ⟨m, (h.lastOfRun_iff ho hb hi).mpr hm, hs⟩
  · rintro ⟨m', hm', hs⟩
    rw [(h.lastOfRun_iff ho hb hi).mp hm'] at hm
    rwa [some.inj hm] at hs

theorem Cut.first_iff {i j : LiftedInstruction} (hi : i ∈ insns) (hj : j ∈ insns) :
    (∃ b s, i ∈ ((finalizeCfg rs entry).block b).instructions ∧
      ((finalizeCfg rs entry).block s).instructions.head? = some j ∧
        s ∈ (finalizeCfg rs entry).succs b) ↔
      ∃ m, LastOfRun insns i m ∧ ∃ l ∈ exitsOf m, StartsRun insns l j := by
  constructor
  · rintro ⟨b, s, hib, hjs, hs⟩
    obtain ⟨r, hb, hir⟩ := exists_run_of_mem hib
    obtain ⟨m, hm, a, ha, r', hr', hkey⟩ := (h.succ_iff ho hb hir).mp hs
    rw [instructions_block hr'] at hjs
    exact ⟨m, hm, a, ha, (h.startsRun_iff ho hj).mpr ⟨s, r', hr', hkey, hjs⟩⟩
  · rintro ⟨m, hm, a, ha, hstart⟩
    obtain ⟨b, r, hb, hir⟩ := h.exists_run hi
    obtain ⟨s, r', hr', hkey, hjs⟩ := (h.startsRun_iff ho hj).mp hstart
    refine ⟨b, s, ?_, ?_, (h.succ_iff ho hb hir).mpr ⟨m, hm, a, ha, r', hr', hkey⟩⟩
    · rw [instructions_block hb]
      exact hir
    · rw [instructions_block hr']
      exact hjs

theorem Cut.leader_iff {i k : LiftedInstruction} (hi : i ∈ insns) (hk : k ∈ insns)
    (hlead : IsLeader insns k.address) :
    (∃ b s, i ∈ ((finalizeCfg rs entry).block b).instructions ∧
      k ∈ ((finalizeCfg rs entry).block s).instructions ∧ s ∈ (finalizeCfg rs entry).succs b) ↔
      ∃ m, LastOfRun insns i m ∧ k.address ∈ exitsOf m := by
  have hself : SameRun insns k.address k.address := ⟨le_refl _, fun l _ hl => hl⟩
  constructor
  · rintro ⟨b, s, hib, hks, hs⟩
    obtain ⟨r, hb, hir⟩ := exists_run_of_mem hib
    obtain ⟨m, hm, a, ha, r', hr', hkey⟩ := (h.succ_iff ho hb hir).mp hs
    rw [instructions_block hr'] at hks
    obtain ⟨hl, hrun⟩ := h.leader hr' hks
    rw [SameRun.unique hl hlead hrun hself] at hkey
    exact ⟨m, hm, hkey ▸ ha⟩
  · rintro ⟨m, hm, ha⟩
    obtain ⟨b, r, hb, hir⟩ := h.exists_run hi
    obtain ⟨s, r', hr', hkr⟩ := h.exists_run hk
    obtain ⟨hl, hrun⟩ := h.leader hr' hkr
    refine ⟨b, s, ?_, ?_, (h.succ_iff ho hb hir).mpr
      ⟨m, hm, k.address, ha, r', hr', SameRun.unique hl hlead hrun hself⟩⟩
    · rw [instructions_block hb]
      exact hir
    · rw [instructions_block hr']
      exact hkr

theorem Cut.next_iff {i j : LiftedInstruction} (hi : i ∈ insns) (hj : j ∈ insns) :
    (∃ b, [i, j] <:+: ((finalizeCfg rs entry).block b).instructions) ↔
      Adjacent insns i j ∧ SameRun insns i.address j.address := by
  constructor
  · rintro ⟨b, hinfix⟩
    have hib : i ∈ ((finalizeCfg rs entry).block b).instructions :=
      hinfix.subset mem_cons_self
    obtain ⟨r, hb, hir⟩ := exists_run_of_mem hib
    rw [instructions_block hb] at hinfix
    exact (h.infix_iff ho hb hir hj).mp hinfix
  · intro hnext
    obtain ⟨b, r, hb, hir⟩ := h.exists_run hi
    refine ⟨b, ?_⟩
    rw [instructions_block hb]
    exact (h.infix_iff ho hb hir hj).mpr hnext

end Edges

theorem lastOfRun_self {i j : LiftedInstruction} (hi : i ∈ insns) (hadj : Adjacent insns i j)
    (hrun : ¬ SameRun insns i.address j.address) : LastOfRun insns i i := by
  refine ⟨hi, ⟨le_refl _, fun l _ hl => hl⟩, fun x hx hix => ?_⟩
  refine (hadj.2 x hx).resolve_right fun hjx => hrun ?_
  exact ⟨le_of_lt hadj.1, fun l hl hlj => hix.2 l hl (le_trans hlj hjx)⟩

theorem next_kept_iff (ho : Ordered insns) {i j : LiftedInstruction} (hi : i ∈ insns)
    (hfall : fallsThrough i = true) (hend : j.address = endAddrOf i)
    (hadj : Adjacent insns i j) :
    ((Adjacent insns i j ∧ SameRun insns i.address j.address) ∨
      ∃ m, LastOfRun insns i m ∧ ∃ l ∈ exitsOf m, StartsRun insns l j) ↔
      SameRun insns i.address j.address ∨ IsLeader insns j.address := by
  by_cases hrun : SameRun insns i.address j.address
  · exact ⟨fun _ => .inl hrun, fun _ => .inl ⟨hadj, hrun⟩⟩
  have hself := lastOfRun_self hi hadj hrun
  constructor
  · rintro (⟨-, hrun'⟩ | ⟨m, hm, l, hl, hstart⟩)
    · exact .inl hrun'
    · have hmi : m = i :=
        eq_of_address ho.ascending hm.mem hi
          (le_antisymm (hself.last m hm.mem hm.run) hm.run.1)
      rw [hmi] at hl
      rcases isLeader_end_of_exit hi hfall hl with rfl | hlead
      · exact .inr (hend ▸ hstart.leader)
      · exact .inr (hend ▸ hlead)
  · rintro (hrun' | hlead)
    · exact absurd hrun' hrun
    · refine .inr ⟨i, hself, j.address, hend ▸ endAddrOf_mem_exitsOf hfall, hlead, ?_, ?_⟩
      · exact ⟨le_refl _, fun l _ hl => hl⟩
      · exact fun x _ hx => hx

end Runs

theorem lt_of_mem_runs (leaders : List U64) (insns : List LiftedInstruction)
    (h : insns.Pairwise fun i j => i.address ≤ j.address) :
    ∀ r ∈ runs leaders insns, ∀ x ∈ r.2, x.address < BitVec.allOnes 64 := by
  induction leaders generalizing insns with
  | nil => exact fun r hr => absurd hr not_mem_nil
  | cons leader leaders ih =>
    unfold runs
    simp only [takeRun_eq _ _ h]
    generalize leaders.head?.getD (BitVec.allOnes 64) = next
    have hrest := ih ((insns.dropWhile fun i => decide (i.address < leader)).dropWhile fun i =>
      decide (i.address < next)) (h.sublist ((dropWhile_sublist _).trans (dropWhile_sublist _)))
    split
    · exact hrest
    · intro r hr
      rcases mem_cons.mp hr with rfl | hr
      · intro x hx
        have hlt := mem_takeWhile_imp hx
        have hlt' := of_decide_eq_true hlt
        rw [show BitVec.allOnes 64 = 0xffffffffffffffff#64 from rfl]
        bv_omega
      · exact hrest r hr

theorem flatMap_instructions (rs : List (U64 × List LiftedInstruction)) (entry : U64) :
    (finalizeCfg rs entry).blocks.flatMap BasicBlock.instructions = rs.flatMap Prod.snd := by
  rw [flatMap_def, map_instructions, ← flatMap_def]

theorem runs_nil (leaders : List U64) : runs leaders [] = [] := by
  induction leaders with
  | nil => rfl
  | cons leader leaders ih =>
    unfold runs takeRun
    exact ih

theorem flatMap_build (insns : List LiftedInstruction) :
    (ControlFlowGraph.build insns).blocks.flatMap BasicBlock.instructions =
      (runs (computeLeaders insns) insns).flatMap Prod.snd := by
  cases insns with
  | nil =>
    rw [runs_nil]
    rfl
  | cons first rest => exact flatMap_instructions _ _

theorem refinesFlow_iff (ho : Ordered insns) :
    RefinesFlow insns (ControlFlowGraph.build insns) ↔ EdgesKept insns := by
  have hasc : insns.Pairwise fun i j => i.address ≤ j.address :=
    ho.ascending.imp fun h => le_of_lt h
  -- an instruction at the last address is in no block
  have hreached : RefinesFlow insns (ControlFlowGraph.build insns) →
      ∀ i ∈ insns, i.address ≠ BitVec.allOnes 64 := by
    intro href i hi heq
    have honce := href.once
    rw [flatMap_build] at honce
    rw [← honce] at hi
    obtain ⟨r, hr, hir⟩ := mem_flatMap.mp hi
    have hlt := lt_of_mem_runs _ _ hasc r hr i hir
    rw [heq] at hlt
    exact lt_irrefl _ hlt
  have hwf := build_wellFormed insns
  cases insns with
  | nil =>
    refine iff_of_true ⟨rfl, ?_, ?_, hwf.mirror, hwf.preds_nodup⟩ ⟨?_, ?_, ?_, ?_⟩ <;>
      exact fun i hi => absurd hi not_mem_nil
  | cons first rest =>
    constructor
    · intro href
      have hcut := cut_runs ho (hreached href)
      refine ⟨hreached href, fun i hi j hj hfall hend hadj => ?_,
        fun i hi j hj hfall hend hadj => ?_, fun i hi k hk htarget => ?_⟩
      · apply (next_kept_iff ho hi hfall hend hadj).mp
        exact (href.falls i hi j hj hfall hend).imp (hcut.next_iff ho hi hj).mp
          (hcut.first_iff ho hi hj).mp
      · rcases href.falls i hi j hj hfall hend with hnext | hfirst
        · exact absurd ((hcut.next_iff ho hi hj).mp hnext).1 hadj
        · exact (hcut.first_iff ho hi hj).mp hfirst
      · exact (hcut.leader_iff ho hi hk (isLeader_target hi htarget)).mp
          (href.jumps i hi k hk htarget)
    · intro hkept
      have hcut := cut_runs ho hkept.reached
      refine ⟨(flatMap_build _).trans hcut.all, fun i hi j hj hfall hend => ?_,
        fun i hi k hk htarget => ?_, hwf.mirror, hwf.preds_nodup⟩
      · by_cases hadj : Adjacent (first :: rest) i j
        · have hstep := hkept.falls i hi j hj hfall hend hadj
          exact ((next_kept_iff ho hi hfall hend hadj).mpr hstep).imp
            (hcut.next_iff ho hi hj).mpr (hcut.first_iff ho hi hj).mpr
        · exact .inr ((hcut.first_iff ho hi hj).mpr (hkept.overlaps i hi j hj hfall hend hadj))
      · exact (hcut.leader_iff ho hi hk (isLeader_target hi htarget)).mpr
          (hkept.jumps i hi k hk htarget)

/-- Instructions side by side, jumped to at their first byte only, each with one target. -/
structure SideBySide (insns : List LiftedInstruction) : Prop where
  disjoint : insns.Pairwise fun i j => endAddrOf i ≤ j.address
  positive : ∀ i ∈ insns, i.address < endAddrOf i
  whole : ∀ l, IsLeader insns l → ∀ i ∈ insns, l ≤ i.address ∨ endAddrOf i ≤ l
  single : ∀ i ∈ insns, i.ops.flatMap branchLeader ⊆ exitsOf i

theorem SideBySide.le_or_end_le (h : SideBySide insns)
    {i x : LiftedInstruction} (hi : i ∈ insns) (hx : x ∈ insns) :
    x.address ≤ i.address ∨ endAddrOf i ≤ x.address := by
  have hpos := h.positive
  have hdis := h.disjoint
  clear h
  induction insns with
  | nil => exact absurd hi not_mem_nil
  | cons y rest ih =>
    rcases mem_cons.mp hi with hiy | hi'
    · rcases mem_cons.mp hx with hxy | hx'
      · exact .inl (by rw [hiy, hxy])
      · exact .inr (hiy ▸ rel_of_pairwise_cons hdis hx')
    · rcases mem_cons.mp hx with hxy | hx'
      · have hend := rel_of_pairwise_cons hdis hi'
        have hlt := hpos y mem_cons_self
        exact .inl (by rw [hxy]; exact le_trans (le_of_lt hlt) hend)
      · exact ih hi' hx' (fun z hz => hpos z (mem_cons_of_mem _ hz)) hdis.of_cons

theorem SideBySide.edgesKept (h : SideBySide insns) : EdgesKept insns := by
  have hadj : ∀ i ∈ insns, ∀ j ∈ insns, j.address = endAddrOf i → Adjacent insns i j := by
    intro i hi j _ hend
    rw [Adjacent, hend]
    exact ⟨h.positive i hi, fun x hx => h.le_or_end_le hi hx⟩
  refine ⟨fun i hi heq => ?_, fun i hi j _ _ hend _ => ?_,
    fun i hi j hj _ hend hnot => absurd (hadj i hi j hj hend) hnot, fun i hi k _ htarget => ?_⟩
  · have hlt := h.positive i hi
    rw [heq] at hlt
    rw [show BitVec.allOnes 64 = 0xffffffffffffffff#64 from rfl] at hlt
    bv_omega
  · by_cases hlead : IsLeader insns j.address
    · exact .inr hlead
    · refine .inl ⟨?_, fun l hl hlj => ?_⟩
      · rw [hend]
        exact le_of_lt (h.positive i hi)
      · refine (h.whole l hl i hi).resolve_right fun hil => hlead ?_
        rw [← hend] at hil
        rwa [le_antisymm hil hlj]
  · -- the end of a jump is a leader, so no other instruction is in its run
    refine ⟨i, ⟨hi, ⟨le_refl _, fun l _ hl => hl⟩, fun x hx hix => ?_⟩,
      h.single i hi htarget⟩
    refine (h.le_or_end_le hi hx).resolve_right fun hend => ?_
    have hle := hix.2 _ (isLeader_endAddrOf hi (endsBlock_of_target htarget)) hend
    exact not_lt.mpr hle (h.positive i hi)

/-- The two builders agree, and their graph refines the flow between the instructions exactly
where no edge is lost. -/
theorem build_refinesFlow_iff {insns : List LiftedInstruction} (h : Ordered insns) :
    (ControlFlowGraph.build insns = buildOwned insns ∧
      RefinesFlow insns (ControlFlowGraph.build insns)) ↔ EdgesKept insns := by
  rw [and_iff_right (build_eq_buildOwned insns)]
  exact refinesFlow_iff h

/-- Both ways of a condition. -/
def ifElse : List LiftedInstruction :=
  [⟨0x1000, 2, "insn_1000", [⟨.cBranch, none, [⟨.ram, 0x1004, 8⟩, ⟨.const, 1, 1⟩]⟩]⟩,
    ⟨0x1002, 1, "insn_1002", []⟩,
    ⟨0x1003, 1, "insn_1003", [⟨.return, none, [⟨.const, 0, 8⟩]⟩]⟩,
    ⟨0x1004, 1, "insn_1004", []⟩,
    ⟨0x1005, 1, "insn_1005", [⟨.return, none, [⟨.const, 0, 8⟩]⟩]⟩]

theorem sideBySide_ifElse : SideBySide ifElse := by
  have hwhole : ∀ l ∈ (ifElse.head?.map address).toList ++
      ifElse.flatMap leadersOf, ∀ i ∈ ifElse, l ≤ i.address ∨ endAddrOf i ≤ l := by
    have hall : ((ifElse.head?.map address).toList ++
        ifElse.flatMap leadersOf).all (fun l =>
          ifElse.all fun i => decide (l ≤ i.address ∨ endAddrOf i ≤ l)) = true := by
      decide +kernel
    intro l hl i hi
    exact of_decide_eq_true (all_eq_true.mp (all_eq_true.mp hall l hl) i hi)
  refine ⟨by decide +kernel, by decide +kernel, fun l hl => hwhole l ?_, by decide +kernel⟩
  rw [mem_append, mem_toList, mem_flatMap]
  exact hl

theorem build_refinesFlow_ifElse :
    Ordered ifElse ∧ ControlFlowGraph.build ifElse = buildOwned ifElse ∧
      RefinesFlow ifElse (ControlFlowGraph.build ifElse) := by
  have ho : Ordered ifElse := ⟨by decide +kernel, by decide +kernel⟩
  exact ⟨ho, (build_refinesFlow_iff ho).mpr sideBySide_ifElse.edgesKept⟩

def jumpInside : List LiftedInstruction :=
  [⟨0x1000, 4, "nop", []⟩, ⟨0x1004, 2, "jmp 0x1002", [⟨.branch, none, [⟨.ram, 0x1002, 8⟩]⟩]⟩]

/-- The first instruction falls to the jump, and its block has no successor. -/
theorem build_loses_jumpInside :
    ¬ ∀ insns, Ordered insns → ControlFlowGraph.build insns = buildOwned insns ∧
      RefinesFlow insns (ControlFlowGraph.build insns) := by
  intro hall
  have ho : Ordered jumpInside := ⟨by decide +kernel, by decide +kernel⟩
  have hkept := (refinesFlow_iff ho).mp (hall jumpInside ho).2
  have hadj : Adjacent jumpInside ⟨0x1000, 4, "nop", []⟩
      ⟨0x1004, 2, "jmp 0x1002", [⟨.branch, none, [⟨.ram, 0x1002, 8⟩]⟩]⟩ := by
    unfold Adjacent
    decide +kernel
  rcases hkept.falls _ mem_cons_self _ (mem_cons_of_mem _ mem_cons_self)
    (by decide +kernel) (by decide +kernel) hadj with hrun | hlead
  · have hle := hrun.2 0x1002 (.inr (by decide +kernel)) (by decide +kernel)
    revert hle
    decide +kernel
  · rcases hlead with hfirst | hlead
    · revert hfirst
      decide +kernel
    · revert hlead
      decide +kernel

end InstructionFlow
