import Reargo.DiscoveryRun

/-!
# Where the walks end

A walk stops at what an earlier one visited, and takes up every block that it has not started
itself. So control never leaves the bodies for an instruction, and the instructions at which
blocks start may be walked again.
-/
namespace DiscoveryFlow

open PcodeModel InstructionModel OrderedMap FunctionDiscovery DiscoveryWalk DiscoveryRun Finset
  ReferenceParts
open Option (some.inj)

section Flow

variable (decode : Decode)

/-- Control can go on behind the instruction. -/
def fallsThrough : FlowType → Bool
  | .call | .indirectCall | .fall | .conditionalJump => true
  | _ => false

def jumps : FlowType → Bool
  | .unconditionalJump | .conditionalJump => true
  | _ => false

/-- To the instruction behind, or to the target of a direct jump. -/
def Flows (a b : U64) : Prop :=
  ∃ insn, decode a = some insn ∧
    (fallsThrough insn.flow ∧ b = next a insn ∨ jumps insn.flow ∧ insn.branchTarget = some b)

/-- The instruction at `a` starts a block at `b`. -/
def Jumps (a b : U64) : Prop :=
  ∃ insn, decode a = some insn ∧ jumps insn.flow ∧
    (insn.branchTarget = some b ∨ insn.flow = .conditionalJump ∧ b = next a insn)

/-- More than `n` instructions in a row, each behind one that does not jump. -/
def Straight : ℕ → U64 → Prop
  | 0, a => (decode a).isSome
  | n + 1, a => ∃ insn, decode a = some insn ∧ fallsThrough insn.flow ∧ ¬ jumps insn.flow ∧
      Straight n (next a insn)

/-- What the instruction at `a` refers to. -/
def referencesAt (a : U64) : List Reference :=
  match decode a with
  | some insn => pushReferences a insn
  | none => []

def Enters (w : Walked) (a : U64) : Prop := a = w.1 ∨ ∃ x, Starts w.2.1 x ∧ Jumps decode x a

end Flow

section Walks

variable {decode : Decode}

/-- A walk on the way. Control that left a visited instruction was visited, is queued, or is
`todo`, where no block was cut `short`; the blocks started or queued are those entered, but for the
`owed` ones. -/
structure WalkFlow (decode : Decode) (short : Prop) (entry : U64) (before : List Reference)
    (todo owed : U64 → Prop) (w : Walk) : Prop where
  closed : short → ∀ a ∈ w.visited, ∀ b, Flows decode a b → (decode b).isSome →
    b ∈ w.visited ∨ b ∈ w.queue ∨ todo b
  started : ∀ b ∈ w.blocks, (decode b).isSome → b ∈ w.visited
  entered : ∀ b, b ∈ w.blocks ∨ b ∈ w.queue ∨ owed b ↔
    b = entry ∨ ∃ x, Starts w.body x ∧ Jumps decode x b
  references : w.references = before ++ w.body.flatMap fun r => referencesAt decode r.1

/-- How often an address was walked, with `walked` before and `starts` blocks there. -/
structure WalkCount (decode : Decode) (walked starts : U64 → ℕ) (w : Walk) : Prop where
  unseen : ∀ a, a ∉ w.visited → walked a + (w.body.map Prod.fst).count a = 0
  atLeast : ∀ a, (decode a).isSome →
    starts a + (if a ∈ w.blocks then 1 else 0) ≤ walked a + (w.body.map Prod.fst).count a
  atMost : ∀ a, walked a + (w.body.map Prod.fst).count a ≤
    starts a + (if a ∈ w.blocks then 1 else 0) + 1

variable {short : Prop} {entry addr start a b : U64} {before : List Reference}
  {todo owed : U64 → Prop} {w : Walk} {insn : Facts} {walked starts : U64 → ℕ}

@[simp] theorem pushBlock_references : (w.pushBlock a).references = w.references := by
  rw [Walk.pushBlock]
  split <;> rfl

theorem mem_queue_pushBlock : b ∈ (w.pushBlock a).blocks ∨ b ∈ (w.pushBlock a).queue ↔
      b ∈ w.blocks ∨ b ∈ w.queue ∨ b = a := by
  rw [Walk.pushBlock]
  split
  · rename_i ha
    constructor
    · exact Or.imp_right .inl
    · rintro (h | h | rfl)
      · exact .inl h
      · exact .inr h
      · exact .inl ha
  · simp only [List.mem_append, List.mem_singleton]

theorem WalkFlow.pushBlock
    (h : WalkFlow decode short entry before (fun b => b = a ∨ todo b) (fun b => b = a ∨ owed b) w) :
    WalkFlow decode short entry before todo owed (w.pushBlock a) where
  closed hshort x hx b hb hd := by
    rw [pushBlock_visited] at hx ⊢
    have queued (hq : b ∈ w.queue ∨ b = a) : b ∈ w.visited ∨ b ∈ (w.pushBlock a).queue := by
      rcases mem_queue_pushBlock.mpr (.inr hq) with hb | hq
      · exact .inl (h.started b (by rwa [pushBlock_blocks] at hb) hd)
      · exact .inr hq
    rcases h.closed hshort x hx b hb hd with hv | hq | ha | ht
    · exact .inl hv
    · exact (queued (.inl hq)).imp_right .inl
    · exact (queued (.inr ha)).imp_right .inl
    · exact .inr (.inr ht)
  started b hb hd := by
    rw [pushBlock_blocks] at hb
    rw [pushBlock_visited]
    exact h.started b hb hd
  entered b := by
    rw [pushBlock_body, ← h.entered, ← or_assoc, mem_queue_pushBlock, or_assoc, or_assoc]
  references := by
    rw [pushBlock_references, pushBlock_body]
    exact h.references

theorem WalkFlow.congr {todo' owed' : U64 → Prop} (h : WalkFlow decode short entry before todo owed w)
    (htodo : ∀ b, todo b ↔ todo' b) (howed : ∀ b, owed b ↔ owed' b) :
    WalkFlow decode short entry before todo' owed' w := by
  rwa [funext fun b => propext (htodo b), funext fun b => propext (howed b)] at h

theorem WalkFlow.pushCall (h : WalkFlow decode short entry before todo owed w) (insn : Facts) :
    WalkFlow decode short entry before todo owed (w.pushCall insn) := by
  rw [Walk.pushCall]
  split
  · exact ⟨h.closed, h.started, h.entered, h.references⟩
  · exact h

theorem WalkFlow.pushTarget
    (h : WalkFlow decode short entry before (fun b => insn.branchTarget = some b ∨ todo b)
      (fun b => insn.branchTarget = some b ∨ owed b) w) :
    WalkFlow decode short entry before todo owed (w.pushTarget insn) := by
  rw [Walk.pushTarget]
  split
  · rename_i t ht
    refine WalkFlow.pushBlock (h.congr (fun b => ?_) fun b => ?_)
    · rw [ht, Option.some.injEq, eq_comm]
    · rw [ht, Option.some.injEq, eq_comm]
  · rename_i ht
    refine h.congr (fun b => ?_) fun b => ?_
    · rw [ht]
      exact or_iff_right (Option.some_ne_none b).symm
    · rw [ht]
      exact or_iff_right (Option.some_ne_none b).symm

theorem WalkFlow.visit (hd : decode addr = some insn)
    (closed : short → ∀ a ∈ w.visited, ∀ b, Flows decode a b → (decode b).isSome →
      b ∈ w.visited ∨ b ∈ w.queue ∨ b = addr)
    (started : ∀ b ∈ w.blocks, (decode b).isSome → b ∈ w.visited ∨ b = addr)
    (entered : ∀ b, b ∈ w.blocks ∨ b ∈ w.queue ↔ b = entry ∨ ∃ x, Starts w.body x ∧ Jumps decode x b)
    (references : w.references = before ++ w.body.flatMap fun r => referencesAt decode r.1) :
    WalkFlow decode short entry before (Flows decode addr) (Jumps decode addr) (w.visit addr insn) where
  closed hshort a ha b hb hdb := by
    rcases mem_insert.mp ha with rfl | ha
    · exact .inr (.inr hb)
    · rcases closed hshort a ha b hb hdb with hv | hq | rfl
      · exact .inl (mem_insert_of_mem hv)
      · exact .inr (.inl hq)
      · exact .inl (mem_insert_self _ _)
  started b hb hdb := mem_insert.mpr (started b hb hdb).symm
  entered b := by
    have now : (∃ x, Starts (w.visit addr insn).body x ∧ Jumps decode x b) ↔
        (∃ x, Starts w.body x ∧ Jumps decode x b) ∨ Jumps decode addr b := by
      simp only [Starts, Walk.visit, List.mem_append, List.mem_singleton, Prod.mk.injEq]
      constructor
      · rintro ⟨x, ⟨len, hx | ⟨rfl, rfl⟩⟩, hj⟩
        · exact .inl ⟨x, ⟨len, hx⟩, hj⟩
        · exact .inr hj
      · rintro (⟨x, ⟨len, hx⟩, hj⟩ | hj)
        · exact ⟨x, ⟨len, .inl hx⟩, hj⟩
        · exact ⟨addr, ⟨_, .inr ⟨rfl, rfl⟩⟩, hj⟩
    rw [now, ← or_assoc, ← or_assoc, ← entered]
    rfl
  references := by
    have own : referencesAt decode addr = pushReferences addr insn := by rw [referencesAt, hd]
    rw [Walk.visit, references, List.flatMap_append, List.flatMap_singleton, own, List.append_assoc]

theorem flows_iff (hd : decode addr = some insn) : Flows decode addr b ↔
    fallsThrough insn.flow ∧ b = next addr insn ∨ jumps insn.flow ∧ insn.branchTarget = some b := by
  constructor
  · rintro ⟨i, hi, h⟩
    rwa [some.inj (hd.symm.trans hi)]
  · exact fun h => ⟨insn, hd, h⟩

theorem jumps_iff (hd : decode addr = some insn) : Jumps decode addr b ↔ jumps insn.flow ∧
    (insn.branchTarget = some b ∨ insn.flow = .conditionalJump ∧ b = next addr insn) := by
  constructor
  · rintro ⟨i, hi, h⟩
    rwa [some.inj (hd.symm.trans hi)]
  · exact fun h => ⟨insn, hd, h⟩

theorem WalkCount.congr {w' : Walk} (h : WalkCount decode walked starts w)
    (hvisited : w'.visited = w.visited) (hblocks : w'.blocks = w.blocks) (hbody : w'.body = w.body) :
    WalkCount decode walked starts w' := by
  constructor
  · rw [hvisited, hbody]
    exact h.unseen
  · rw [hblocks, hbody]
    exact h.atLeast
  · rw [hblocks, hbody]
    exact h.atMost

theorem count_visit (a : U64) : ((w.visit addr insn).body.map Prod.fst).count a =
    (w.body.map Prod.fst).count a + if a = addr then 1 else 0 := by
  rw [Walk.visit, List.map_append, List.count_append, List.map_singleton, List.count_singleton]
  by_cases ha : a = addr
  · rw [if_pos ha, if_pos (beq_iff_eq.mpr ha.symm)]
  · rw [if_neg ha, if_neg fun h => ha (beq_iff_eq.mp h).symm]

theorem WalkCount.visit (h : WalkCount decode walked starts w) (hnew : addr ∉ w.visited) :
    WalkCount decode walked starts (w.visit addr insn) := by
  constructor
  · intro a ha
    have hne : ¬ a = addr := fun he => ha (he ▸ mem_insert_self _ _)
    rw [count_visit, if_neg hne]
    exact h.unseen a fun hv => ha (mem_insert_of_mem hv)
  · intro a hd
    rw [count_visit]
    exact (h.atLeast a hd).trans (by omega)
  · intro a
    rw [count_visit]
    have most := h.atMost a
    change _ ≤ starts a + (if a ∈ w.blocks then 1 else 0) + 1
    by_cases ha : a = addr
    · have none := h.unseen a (ha ▸ hnew)
      rw [if_pos ha]
      omega
    · rw [if_neg ha]
      exact most

theorem WalkCount.visitStart (h : WalkCount decode walked starts w) (hnew : start ∉ w.blocks)
    (queue : List U64) :
    WalkCount decode walked starts
      ({ w with queue := queue, blocks := insert start w.blocks }.visit start insn) := by
  have one (a : U64) : (if a ∈ insert start w.blocks then 1 else 0) =
      (if a ∈ w.blocks then 1 else 0) + if a = start then 1 else 0 := by
    by_cases ha : a = start
    · subst ha
      rw [if_pos (mem_insert_self _ _), if_neg hnew, if_pos rfl]
    · simp only [mem_insert, ha, false_or, if_false, add_zero]
  constructor
  · intro a ha
    have hne : ¬ a = start := fun he => ha (he ▸ mem_insert_self _ _)
    rw [count_visit, if_neg hne]
    exact h.unseen a fun hv => ha (mem_insert_of_mem hv)
  · intro a hd
    have least := h.atLeast a hd
    rw [count_visit]
    change starts a + (if a ∈ insert start w.blocks then 1 else 0) ≤ _
    rw [one]
    dsimp only
    omega
  · intro a
    have most := h.atMost a
    rw [count_visit]
    change _ ≤ starts a + (if a ∈ insert start w.blocks then 1 else 0) + 1
    rw [one]
    dsimp only
    omega

theorem WalkFlow.ended (h : WalkFlow decode short entry before (· = addr) (fun _ => False) w)
    (hdone : short → (decode addr).isSome → addr ∈ w.visited) :
    WalkFlow decode short entry before (fun _ => False) (fun _ => False) w where
  closed hshort a ha b hb hd := by
    rcases h.closed hshort a ha b hb hd with hv | hq | rfl
    · exact .inl hv
    · exact .inr (.inl hq)
    · exact .inl (hdone hshort hd)
  started := h.started
  entered := h.entered
  references := h.references

/-- All that a walk has visited is dealt with. -/
def Settled (decode : Decode) (short : Prop) (entry : U64) (before : List Reference)
    (walked starts : U64 → ℕ) (w : Walk) : Prop :=
  WalkFlow decode short entry before (fun _ => False) (fun _ => False) w ∧
    WalkCount decode walked starts w

theorem settled_behind {n : ℕ} (hd : decode addr = some insn)
    (h : WalkFlow decode short entry before (Flows decode addr) (Jumps decode addr) w)
    (hc : WalkCount decode walked starts w)
    (straight : ∀ w', fallsThrough insn.flow → ¬ jumps insn.flow →
      WalkFlow decode short entry before (· = next addr insn) (fun _ => False) w' →
      WalkCount decode walked starts w' →
      Settled decode short entry before walked starts (walkBlock decode start n (next addr insn) w')) :
    Settled decode short entry before walked starts (match insn.flow with
      | .call => walkBlock decode start n (next addr insn) (w.pushCall insn)
      | .indirectCall | .fall => walkBlock decode start n (next addr insn) w
      | .unconditionalJump => w.pushTarget insn
      | .conditionalJump => (w.pushTarget insn).pushBlock (next addr insn)
      | .indirectJump | .ret => w) := by
  have known := h.congr (fun _ => flows_iff hd) fun _ => jumps_iff hd
  cases hflow : insn.flow with
  | call =>
    rw [hflow] at known straight
    have behind : WalkFlow decode short entry before (· = next addr insn) (fun _ => False) w :=
      known.congr (by simp [fallsThrough, jumps]) (by simp [jumps])
    exact straight _ rfl nofun (behind.pushCall insn) (hc.congr (by simp) (by simp) (by simp))
  | indirectCall =>
    rw [hflow] at known straight
    exact straight w rfl nofun (known.congr (by simp [fallsThrough, jumps]) (by simp [jumps])) hc
  | fall =>
    rw [hflow] at known straight
    exact straight w rfl nofun (known.congr (by simp [fallsThrough, jumps]) (by simp [jumps])) hc
  | unconditionalJump =>
    rw [hflow] at known
    refine ⟨WalkFlow.pushTarget (known.congr ?_ ?_), hc.congr (by simp) (by simp) (by simp)⟩
    · simp [fallsThrough, jumps]
    · simp [jumps]
  | conditionalJump =>
    rw [hflow] at known
    refine ⟨WalkFlow.pushBlock (WalkFlow.pushTarget (known.congr ?_ ?_)),
      hc.congr (by simp) (by simp) (by simp)⟩
    · simp [fallsThrough, jumps, or_comm]
    · simp [jumps]
  | indirectJump =>
    rw [hflow] at known
    exact ⟨known.congr (by simp [fallsThrough, jumps]) (by simp [jumps]), hc⟩
  | ret =>
    rw [hflow] at known
    exact ⟨known.congr (by simp [fallsThrough, jumps]) (by simp [jumps]), hc⟩

theorem next_toNat (hfits : DecodeFits decode) (hd : decode addr = some insn) :
    addr.toNat < (next addr insn).toNat := by
  have fits := hfits addr insn hd
  rw [next, BitVec.toNat_add, BitVec.toNat_setWidth]
  omega

theorem settled_walkBlock (hfits : DecodeFits decode) (n : ℕ) {addr : U64} {w : Walk}
    (hshort : short → ¬ Straight decode n addr) (hbehind : start.toNat < addr.toNat)
    (h : WalkFlow decode short entry before (· = addr) (fun _ => False) w)
    (hc : WalkCount decode walked starts w) :
    Settled decode short entry before walked starts (walkBlock decode start n addr w) := by
  induction n generalizing addr w with
  | zero => exact ⟨h.ended fun hs hd => absurd hd (hshort hs), hc⟩
  | succ n ih =>
    rw [walkBlock]
    split
    · rename_i hv
      exact ⟨h.ended fun _ _ => hv.1, hc⟩
    · rename_i hv
      have hne : addr ≠ start := fun he => by simp [he] at hbehind
      have hnew : addr ∉ w.visited := fun hin => hv ⟨hin, hne⟩
      split
      · rename_i hd
        exact ⟨h.ended fun _ hs => by simp [hd] at hs, hc⟩
      · rename_i insn hd
        have after := WalkFlow.visit hd h.closed (fun b hb hdb => .inl (h.started b hb hdb))
          (fun b => by rw [← h.entered, or_false]) h.references
        refine settled_behind hd after (hc.visit hnew) fun w' hf hj h' hc' => ?_
        exact ih (fun hs straight => hshort hs ⟨insn, hd, hf, hj, straight⟩)
          (hbehind.trans (next_toNat hfits hd)) h' hc'

theorem settled_block (hfits : DecodeFits decode) {n : ℕ}
    (hshort : short → ¬ Straight decode (n + 1) start)
    {rest : List U64} (hq : w.queue = start :: rest) (hb : start ∉ w.blocks)
    (h : Settled decode short entry before walked starts w) :
    Settled decode short entry before walked starts (walkBlock decode start (n + 1) start
      { w with queue := rest, blocks := insert start w.blocks }) := by
  obtain ⟨flow, count⟩ := h
  have off {b : U64} : b ∈ w.queue ↔ b = start ∨ b ∈ rest := by rw [hq, List.mem_cons]
  have entered (b : U64) : b ∈ insert start w.blocks ∨ b ∈ rest ↔
      b = entry ∨ ∃ x, Starts w.body x ∧ Jumps decode x b := by
    rw [← flow.entered, off, or_false, mem_insert, or_comm (a := b = start), or_assoc]
  have once : ¬ (start ∈ w.visited ∧ start ≠ start) := fun h => h.2 rfl
  rw [walkBlock, if_neg once]
  split
  · rename_i hd
    have undecoded {b : U64} (hdb : (decode b).isSome) : b ≠ start := by
      rintro rfl
      simp [hd] at hdb
    refine ⟨⟨fun hs a ha b hb hdb => ?_, fun b hb hdb => ?_, fun b => ?_, flow.references⟩,
      ⟨count.unseen, fun a hda => ?_, fun a => ?_⟩⟩
    · rcases flow.closed hs a ha b hb hdb with hv | hq | hf
      · exact .inl hv
      · exact .inr (.inl ((off.mp hq).resolve_left (undecoded hdb)))
      · exact hf.elim
    · exact flow.started b ((mem_insert.mp hb).resolve_left (undecoded hdb)) hdb
    · rw [← entered, or_false]
    · simpa only [mem_insert, undecoded hda, false_or] using count.atLeast a hda
    · refine (count.atMost a).trans ?_
      have more : (if a ∈ w.blocks then 1 else 0) ≤ if a ∈ insert start w.blocks then 1 else 0 := by
        by_cases ha : a ∈ w.blocks
        · rw [if_pos ha, if_pos (mem_insert_of_mem ha)]
        · rw [if_neg ha]
          exact Nat.zero_le _
      exact Nat.succ_le_succ (Nat.add_le_add_left more _)
  · rename_i insn hd
    have after : WalkFlow decode short entry before (Flows decode start) (Jumps decode start)
        ({ w with queue := rest, blocks := insert start w.blocks }.visit start insn) := by
      refine WalkFlow.visit hd (fun hs a ha b hb hdb => ?_) (fun b hb hdb => ?_) entered
        flow.references
      · rcases flow.closed hs a ha b hb hdb with hv | hq | hf
        · exact .inl hv
        · exact .inr (off.mp hq).symm
        · exact hf.elim
      · rcases mem_insert.mp hb with rfl | hb
        · exact .inr rfl
        · exact .inl (flow.started b hb hdb)
    refine settled_behind hd after (count.visitStart hb rest) fun w' hf hj h' hc' => ?_
    exact settled_walkBlock hfits n (fun hs straight => hshort hs ⟨insn, hd, hf, hj, straight⟩)
      (next_toNat hfits hd) h' hc'

theorem mem_blocks_walkBlocks (h : a ∈ w.blocks) : a ∈ (walkBlocks decode w).blocks := by
  induction w using walkBlocks.induct decode with
  | case1 w hq => rwa [walkBlocks_nil hq]
  | case2 w start rest hq hb ih =>
    rw [walkBlocks_seen hq hb]
    exact ih h
  | case3 w start rest hq hb ih =>
    rw [walkBlocks_block hq hb]
    refine ih ?_
    rw [walkBlock_blocks]
    exact mem_insert_of_mem h

theorem settled_walkBlocks (hfits : DecodeFits decode)
    (hshort : short → ∀ a ∈ (walkBlocks decode w).blocks, ¬ Straight decode maxInsns a)
    (h : Settled decode short entry before walked starts w) :
    Settled decode short entry before walked starts (walkBlocks decode w) ∧
      (walkBlocks decode w).queue = [] := by
  induction w using walkBlocks.induct decode with
  | case1 w hq =>
    rw [walkBlocks_nil hq]
    exact ⟨h, hq⟩
  | case2 w start rest hq hb ih =>
    rw [walkBlocks_seen hq hb] at hshort ⊢
    refine ih hshort ⟨⟨fun hs a ha b hfl hd => ?_, h.1.started, fun b => ?_, h.1.references⟩,
      h.2.congr rfl rfl rfl⟩
    · rcases h.1.closed hs a ha b hfl hd with hv | hin | hf
      · exact .inl hv
      · rw [hq] at hin
        rcases List.mem_cons.mp hin with rfl | hin
        · exact .inl (h.1.started b hb hd)
        · exact .inr (.inl hin)
      · exact hf.elim
    · rw [← h.1.entered, hq, List.mem_cons]
      constructor
      · exact Or.imp_right (Or.imp_left .inr)
      · rintro (h | (rfl | h) | h)
        · exact .inl h
        · exact .inl hb
        · exact .inr (.inl h)
        · exact h.elim
  | case3 w start rest hq hb ih =>
    rw [walkBlocks_block hq hb] at hshort ⊢
    refine ih hshort (settled_block hfits (fun hs => hshort hs start ?_) hq hb h)
    refine mem_blocks_walkBlocks ?_
    rw [walkBlock_blocks]
    exact mem_insert_self _ _

end Walks

section Runs

open Classical in
noncomputable def entriesAt (decode : Decode) (bodies : List Walked) (a : U64) : ℕ :=
  bodies.countP fun w => Enters decode w a

/-- The addresses of the instructions walked, in order. -/
def walkedIn (bodies : List Walked) : List U64 := bodies.flatMap fun w => w.2.1.map Prod.fst

/-- No block walked runs straight past the limit of a block. -/
def ShortBlocks (decode : Decode) (bodies : List Walked) : Prop :=
  ∀ w ∈ bodies, ∀ a, Enters decode w a → ¬ Straight decode maxInsns a

variable {decode : Decode} {primaryAt : U64 → Option String} {s : Search}

/-- Between two walks. -/
structure RunFlow (decode : Decode) (s : Search) : Prop where
  closed : ShortBlocks decode s.bodies →
    ∀ a ∈ s.visited, ∀ b, Flows decode a b → (decode b).isSome → b ∈ s.visited
  references : s.references = (walkedIn s.bodies).flatMap (referencesAt decode)
  unseen : ∀ a ∉ s.visited, (walkedIn s.bodies).count a = 0
  atLeast : ∀ a, (decode a).isSome → entriesAt decode s.bodies a ≤ (walkedIn s.bodies).count a
  atMost : ∀ a, (walkedIn s.bodies).count a ≤ entriesAt decode s.bodies a + 1

theorem RunFlow.enter (hfits : DecodeFits decode) (h : RunFlow decode s) (entry : U64) :
    RunFlow decode (s.enter decode primaryAt entry) := by
  have start : Settled decode (ShortBlocks decode s.bodies ∧ ∀ a ∈
      (walkBlocks decode ⟨[entry], ∅, s.visited, [], [], s.references⟩).blocks,
        ¬ Straight decode maxInsns a) entry s.references ((walkedIn s.bodies).count ·)
      (entriesAt decode s.bodies) ⟨[entry], ∅, s.visited, [], [], s.references⟩ := by
    refine ⟨⟨fun hs a ha b hb hd => .inl (h.closed hs.1 a ha b hb hd), by simp, by simp [Starts],
      by simp⟩, ⟨fun a ha => h.unseen a ha, fun a hd => by simpa using h.atLeast a hd,
        fun a => by simpa using h.atMost a⟩⟩
  obtain ⟨⟨flow, count⟩, hq⟩ := settled_walkBlocks hfits And.right start
  rw [Search.enter, disassembleFunction]
  split
  · exact h
  rename_i hnew
  split
  · exact h
  generalize walkBlocks decode ⟨[entry], ∅, s.visited, [], [], s.references⟩ = w at *
  have closed (hbefore : ShortBlocks decode s.bodies)
      (hblocks : ∀ a ∈ w.blocks, ¬ Straight decode maxInsns a) (a : U64) (ha : a ∈ w.visited)
      (b : U64) (hb : Flows decode a b) (hd : (decode b).isSome) : b ∈ w.visited := by
    rcases flow.closed ⟨hbefore, hblocks⟩ a ha b hb hd with hv | hin | hf
    · exact hv
    · rw [hq] at hin
      exact absurd hin List.not_mem_nil
    · exact hf.elim
  by_cases hempty : w.body.length = 0
  · have none : w.body = [] := List.length_eq_zero_iff.mp hempty
    rw [if_pos hempty]
    refine ⟨fun hshort => closed hshort fun a ha straight => ?_, ?_, ?_, h.atLeast, h.atMost⟩
    · -- only the entry starts a block of a walk without a body, and no instruction is there
      have here : a = entry := by
        have entered := (flow.entered a).mp (.inl ha)
        rw [none] at entered
        refine entered.resolve_right ?_
        rintro ⟨x, ⟨len, hlen⟩, -⟩
        exact absurd hlen List.not_mem_nil
      subst here
      obtain ⟨insn, hd, -⟩ := straight
      have least := count.atLeast a (by rw [hd]; rfl)
      rw [if_pos ha, none] at least
      have unseen := h.unseen a hnew
      simp only [List.map_nil, List.count_nil] at least
      omega
    · rw [flow.references, none, List.flatMap_nil, List.append_nil]
      exact h.references
    · intro a ha
      exact Nat.eq_zero_of_add_eq_zero_right (count.unseen a ha)
  · rw [if_neg hempty]
    have enters (calls : List U64) (a : U64) :
        Enters decode (entry, w.body, calls) a ↔ a ∈ w.blocks := by
      rw [Enters, ← flow.entered, hq]
      simp
    have more (calls : List U64) : walkedIn (s.bodies ++ [(entry, w.body, calls)]) =
        walkedIn s.bodies ++ w.body.map Prod.fst := by
      rw [walkedIn, List.flatMap_append, List.flatMap_singleton]
      rfl
    have entries (calls : List U64) (a : U64) :
        entriesAt decode (s.bodies ++ [(entry, w.body, calls)]) a =
          entriesAt decode s.bodies a + if a ∈ w.blocks then 1 else 0 := by
      rw [entriesAt, List.countP_append, List.countP_singleton]
      simp only [decide_eq_true_eq, enters]
      rfl
    refine ⟨fun hshort => ?_, ?_, ?_, ?_, ?_⟩
    · refine closed (fun w' hw' => hshort w' (List.mem_append_left _ hw')) fun a ha => ?_
      exact hshort _ (List.mem_append_right _ (List.mem_singleton_self _)) a ((enters _ a).mpr ha)
    · dsimp only
      rw [flow.references, more, List.flatMap_append, List.flatMap_map, h.references]
    · intro a ha
      dsimp only
      rw [more, List.count_append]
      exact count.unseen a ha
    · intro a hd
      dsimp only
      rw [more, entries, List.count_append]
      exact count.atLeast a hd
    · intro a
      dsimp only
      rw [more, entries, List.count_append]
      exact count.atMost a

theorem discoverLoop_enters (keeps : Search → Prop)
    (hqueue : ∀ s queue, keeps s → keeps { s with queue := queue })
    (henter : ∀ s entry, keeps s → keeps (s.enter decode primaryAt entry)) (h : keeps s) :
    keeps (discoverLoop decode primaryAt s) := by
  induction s using discoverLoop.induct decode primaryAt with
  | case1 s hq =>
    rw [discoverLoop_nil hq]
    exact h
  | case2 s entry rest hq hlimit =>
    rw [discoverLoop_cons hq, if_pos hlimit]
    exact hqueue s rest h
  | case3 s entry rest hq hlimit ih =>
    rw [discoverLoop_cons hq, if_neg hlimit]
    exact ih (henter _ entry (hqueue s rest h))

theorem runFlow_discover (primaryAt : U64 → Option String) (hfits : DecodeFits decode)
    (listing : Listing) (queue : List U64) :
    RunFlow decode (discover decode primaryAt listing queue) := by
  refine discoverLoop_enters (RunFlow decode)
    (fun s queue h => ⟨h.closed, h.references, h.unseen, h.atLeast, h.atMost⟩)
    (fun s entry h => h.enter hfits entry) ?_
  constructor
  · simp
  · rfl
  · exact fun _ _ => rfl
  · exact fun _ _ => Nat.zero_le _
  · exact fun _ => Nat.zero_le _

def InBody (functions : Listing) (a : U64) : Prop :=
  ∃ e f, functions.get? e = some f ∧ Starts f.body a

/-- What a run finds: bodies that control does not leave for an instruction, and references for
each instruction walked. One is walked when it is met first and whenever a block starts there. -/
structure ClosedRun (decode : Decode) (s : Search) : Prop where
  flows : ∀ a b, InBody (Search.functions s) a → Flows decode a b → (decode b).isSome →
    ∃ e f, (Search.functions s).get? e = some f ∧ f.body.contains b = true ∧ Starts f.body b
  references : s.references = (walkedIn s.bodies).flatMap (referencesAt decode)
  walked : ∀ a, a ∈ walkedIn s.bodies ↔ InBody (Search.functions s) a
  again : ∀ a, InBody (Search.functions s) a →
    entriesAt decode s.bodies a ≤ (walkedIn s.bodies).count a ∧
      (walkedIn s.bodies).count a ≤ entriesAt decode s.bodies a + 1
  once : ∀ a, InBody (Search.functions s) a → (∀ w ∈ s.bodies, ¬ Enters decode w a) →
    (walkedIn s.bodies).count a = 1

theorem mem_walkedIn {bodies : List Walked} {a : U64} :
    a ∈ walkedIn bodies ↔ ∃ w ∈ bodies, Starts w.2.1 a := by
  simp only [walkedIn, List.mem_flatMap, List.mem_map, Starts, Prod.exists, exists_and_right,
    exists_eq_right]

theorem inBody_iff {listing : Listing} {queue : List U64} (h : SearchInv decode listing queue s)
    {a : U64} : InBody (Search.functions s) a ↔ ∃ w ∈ s.bodies, Starts w.2.1 a := by
  constructor
  · rintro ⟨e, f, hf, len, hlen⟩
    by_cases he : e ∈ s.bodies.map Prod.fst
    · obtain ⟨w, hw, rfl⟩ := List.mem_map.mp he
      obtain ⟨f', hf', hbody⟩ := h.functions hw
      rw [some.inj (hf.symm.trans hf'), hbody, mem_ofInsns] at hlen
      exact ⟨w, hw, len, hlen⟩
    · have hf' := (get?_setWalked_of_notMem he).symm.trans hf
      rw [h.unset e f hf'] at hlen
      exact absurd hlen List.not_mem_nil
  · rintro ⟨w, hw, len, hlen⟩
    obtain ⟨f, hf, hbody⟩ := h.functions hw
    exact ⟨w.1, f, hf, len, hbody ▸ mem_ofInsns.mpr hlen⟩

/-- The bodies are closed under the flow, and the references are those of the instructions
walked. -/
theorem discover_closed (decode : Decode) (primaryAt : U64 → Option String) (listing : Listing)
    (queue : List U64) (hfits : DecodeFits decode)
    (hunset : ∀ e f, listing.get? e = some f → f.body = [])
    (hshort : ShortBlocks decode (discover decode primaryAt listing queue).bodies)
    (hfunctions : (discover decode primaryAt listing queue).functionsFound < maxFunctions)
    (hinsns : (discover decode primaryAt listing queue).instructionsDecoded < maxInstructions) :
    ClosedRun decode (discover decode primaryAt listing queue) := by
  have flow := runFlow_discover primaryAt hfits listing queue
  have inv : SearchInv decode listing queue (discover decode primaryAt listing queue) :=
    (discoverLoop_keeps (SearchInv decode listing queue)
      (fun s s' entry rest h hq he => h.step hq he) (searchInv_initial hunset) hfunctions hinsns).1
  generalize discover decode primaryAt listing queue = s at flow inv hshort
  have walked (a : U64) : a ∈ walkedIn s.bodies ↔ InBody (Search.functions s) a := by
    rw [mem_walkedIn, inBody_iff inv]
  refine ⟨fun a b ha hb hd => ?_, flow.references, walked, fun a ha => ?_, fun a ha hno => ?_⟩
  · have visited := flow.closed hshort a ((inv.visited a).mpr ((inBody_iff inv).mp ha)) b hb hd
    obtain ⟨w, hw, hstarts⟩ := (inv.visited b).mp visited
    obtain ⟨f, hf, hbody⟩ := inv.functions hw
    obtain ⟨len, hlen⟩ := hstarts
    exact ⟨w.1, f, hf, hbody ▸ contains_of_starts hfits (inv.walked w hw).1 ⟨len, hlen⟩,
      len, hbody ▸ mem_ofInsns.mpr hlen⟩
  · obtain ⟨w, hw, len, hlen⟩ := (inBody_iff inv).mp ha
    obtain ⟨insn, hd, -⟩ := (inv.walked w hw).1.insns a len hlen
    exact ⟨flow.atLeast a (by rw [hd]; rfl), flow.atMost a⟩
  · have none : entriesAt decode s.bodies a = 0 := by
      classical
      rw [entriesAt, List.countP_eq_zero]
      exact fun w hw h => hno w hw (of_decide_eq_true h)
    have most := flow.atMost a
    have some : 0 < (walkedIn s.bodies).count a := List.count_pos_iff.mpr ((walked a).mpr ha)
    omega

end Runs

section LoopIn

def loopIn : Decode := fun a =>
  if a = 0 then some ⟨0, 1, .fall, false⟩
  else if a = 1 then some ⟨0, 2, .indirectCall, false⟩
  else if a = 3 then some ⟨1, 2, .unconditionalJump, true⟩
  else none

theorem loopIn_some {a : U64} {insn : Facts} (h : loopIn a = some insn) :
    a = 0 ∧ insn = ⟨0, 1, .fall, false⟩ ∨ a = 1 ∧ insn = ⟨0, 2, .indirectCall, false⟩ ∨
      a = 3 ∧ insn = ⟨1, 2, .unconditionalJump, true⟩ := by
  simp only [loopIn] at h
  split at h
  · rename_i ha
    exact .inl ⟨ha, (some.inj h).symm⟩
  split at h
  · rename_i ha
    exact .inr (.inl ⟨ha, (some.inj h).symm⟩)
  split at h
  · rename_i ha
    exact .inr (.inr ⟨ha, (some.inj h).symm⟩)
  · cases h

theorem loopIn_fits : DecodeFits loopIn := by
  intro a insn h
  rcases loopIn_some h with ⟨rfl, rfl⟩ | ⟨rfl, rfl⟩ | ⟨rfl, rfl⟩ <;> decide

theorem loopIn_short (a : U64) : ¬ Straight loopIn maxInsns a := by
  have jump (n : ℕ) : ¬ Straight loopIn (n + 1) 3 := by
    rintro ⟨insn, hd, hf, -⟩
    rcases loopIn_some hd with ⟨h, -⟩ | ⟨h, -⟩ | ⟨-, rfl⟩
    · cases h
    · cases h
    · cases hf
  have call (n : ℕ) : ¬ Straight loopIn (n + 2) 1 := by
    rintro ⟨insn, hd, -, -, hs⟩
    rcases loopIn_some hd with ⟨h, -⟩ | ⟨-, rfl⟩ | ⟨h, -⟩
    · cases h
    · exact jump n hs
    · cases h
  rintro ⟨insn, hd, hf, -, hs⟩
  rcases loopIn_some hd with ⟨rfl, rfl⟩ | ⟨rfl, rfl⟩ | ⟨rfl, rfl⟩
  · exact call 9997 hs
  · exact jump 9998 hs
  · cases hf

def loopInWalk : Walk where
  queue := []
  blocks := {1, 0}
  visited := {3, 1, 0}
  body := [(0, 1), (1, 2), (3, 2), (1, 2)]
  callTargets := []
  references := [⟨1, 0, .indirectCall⟩, ⟨3, 1, .unconditionalJump⟩, ⟨1, 0, .indirectCall⟩]

theorem walkBlocks_loopIn : walkBlocks loopIn ⟨[0], ∅, ∅, [], [], []⟩ = loopInWalk := by
  have hfirst : walkBlock loopIn 0 maxInsns 0 ⟨[], {0}, ∅, [], [], []⟩ =
      ⟨[1], {0}, {3, 1, 0}, [(0, 1), (1, 2), (3, 2)], [],
        [⟨1, 0, .indirectCall⟩, ⟨3, 1, .unconditionalJump⟩]⟩ := rfl
  have hagain : walkBlock loopIn 1 maxInsns 1 ⟨[], {1, 0}, {3, 1, 0}, [(0, 1), (1, 2), (3, 2)], [],
      [⟨1, 0, .indirectCall⟩, ⟨3, 1, .unconditionalJump⟩]⟩ = loopInWalk := rfl
  have hnew : (0 : U64) ∉ (∅ : Finset U64) := notMem_empty 0
  have hnew' : (1 : U64) ∉ ({0} : Finset U64) := by decide
  calc walkBlocks loopIn ⟨[0], ∅, ∅, [], [], []⟩
      = walkBlocks loopIn ⟨[1], {0}, {3, 1, 0}, [(0, 1), (1, 2), (3, 2)], [],
          [⟨1, 0, .indirectCall⟩, ⟨3, 1, .unconditionalJump⟩]⟩ :=
        (walkBlocks_block rfl hnew).trans (congrArg (walkBlocks loopIn) hfirst)
    _ = walkBlocks loopIn loopInWalk :=
        (walkBlocks_block rfl hnew').trans (congrArg (walkBlocks loopIn) hagain)
    _ = loopInWalk := walkBlocks_nil rfl

def loopInRun : Search :=
  { listing := (OrdMap.empty : Listing).insert 0 ⟨0, hexName 0, [], []⟩
    queue := []
    visited := {3, 1, 0}
    references := loopInWalk.references
    bodies := [(0, loopInWalk.body, [])]
    functionsFound := 1
    referencesFound := 3
    instructionsDecoded := 4 }

theorem discover_loopIn : discover loopIn (fun _ => none) OrdMap.empty [0] = loopInRun := by
  have hwalk : disassembleFunction loopIn 0 ∅ [] =
      ({3, 1, 0}, loopInWalk.references, some ⟨loopInWalk.body, [], 3, 4⟩) := by
    simp only [disassembleFunction, walkBlocks_loopIn, loopInWalk, List.mergeSort_nil]
    rfl
  have hfirst : (⟨OrdMap.empty, [], ∅, [], [], 0, 0, 0⟩ : Search).enter loopIn
      (fun _ => none) 0 = loopInRun := by
    have hnew : (0 : U64) ∉ (∅ : Finset U64) := notMem_empty 0
    simp only [Search.enter, if_neg hnew, hwalk]
    rfl
  rw [discover, discoverLoop_cons rfl, if_neg (by decide)]
  exact (congrArg _ hfirst).trans (discoverLoop_nil rfl)

/-- The indirect call is referred from twice. -/
theorem loop_start_counted_twice : DecodeFits loopIn ∧ (∀ a, ¬ Straight loopIn maxInsns a) ∧
      (discover loopIn (fun _ => none) OrdMap.empty [0]).functionsFound < maxFunctions ∧
      (discover loopIn (fun _ => none) OrdMap.empty [0]).instructionsDecoded < maxInstructions ∧
      ¬ ∃ insns : List U64, insns.Nodup ∧ (∀ a, a ∈ insns ↔
          InBody (Search.functions (discover loopIn (fun _ => none) OrdMap.empty [0])) a) ∧
        (discover loopIn (fun _ => none) OrdMap.empty [0]).references.Perm
          (insns.flatMap (referencesAt loopIn)) := by
  rw [discover_loopIn]
  refine ⟨loopIn_fits, loopIn_short, by decide, by decide, ?_⟩
  rintro ⟨insns, hnodup, -, hperm⟩
  have twice : loopInRun.references.count ⟨1, 0, .indirectCall⟩ = 2 := by decide
  have own (a : U64) : (referencesAt loopIn a).count ⟨1, 0, .indirectCall⟩ ≤ if a = 1 then 1 else 0 := by
    rw [referencesAt]
    split
    · rename_i insn hd
      rcases loopIn_some hd with ⟨rfl, rfl⟩ | ⟨rfl, rfl⟩ | ⟨rfl, rfl⟩ <;> decide
    · exact Nat.zero_le _
  have atMost : (insns.flatMap (referencesAt loopIn)).count ⟨1, 0, .indirectCall⟩ ≤ insns.count 1 := by
    clear hnodup hperm
    induction insns with
    | nil => exact Nat.zero_le _
    | cons a insns ih =>
      rw [List.flatMap_cons, List.count_append, List.count_cons]
      have here := own a
      simp only [beq_iff_eq]
      omega
  rw [← hperm.count_eq, twice] at atMost
  have once := List.nodup_iff_count_le_one.mp hnodup 1
  omega

theorem discover_closed_loop : ClosedRun loopIn (discover loopIn (fun _ => none) OrdMap.empty [0]) := by
  have hfunctions : (discover loopIn (fun _ => none) OrdMap.empty [0]).functionsFound <
      maxFunctions := by
    rw [discover_loopIn]
    decide
  have hinsns : (discover loopIn (fun _ => none) OrdMap.empty [0]).instructionsDecoded <
      maxInstructions := by
    rw [discover_loopIn]
    decide
  exact discover_closed loopIn (fun _ => none) OrdMap.empty [0] loopIn_fits (by simp)
    (fun _ _ a _ => loopIn_short a) hfunctions hinsns

end LoopIn

end DiscoveryFlow
