import Reargo.AddressSets

/-!
# Packed bodies

The instructions of a walk, packed as runs of instructions each of which starts where the one
before ends. Whatever runs there are, the set read from the packed runs and the one made of the
instructions one by one are the set of the ranges that were pushed.
-/
namespace PackedBodies

open PcodeModel AddressSets List
open Option hiding map map_map mem_map or or_assoc

/-- An address and a length. -/
abbrev Insn := U64 × BitVec 32

structure BodyInsns where
  runs : List (U64 × BitVec 32)
  lens : List (BitVec 8)
  wide : Option (List Insn)
  last : Option U64

/-- The first address, the number of instructions, and the run's or its first one's place. -/
abbrev Run := U64 × BitVec 32 × BitVec 32

def checked_add (a b : U64) : Option U64 :=
  if a.toNat + b.toNat < 2 ^ 64 then some (a + b) else none

/-- A slice, unless its bounds are out of order or past the end. -/
def slice {α : Type} (l : List α) (i j : ℕ) : Option (List α) :=
  if i ≤ j ∧ j ≤ l.length then some ((l.take j).drop i) else none

/-- The instructions of lengths one after the other. -/
def scan : U64 → List (BitVec 8) → List Insn
  | _, [] => []
  | a, len :: lens => (a, len.setWidth 32) :: scan (a + len.setWidth 64) lens

namespace BodyInsns

def default : BodyInsns := ⟨[], [], none, none⟩

variable (b : BodyInsns)

/-- The instructions of run `k`; `none` where an index is out of bounds. -/
def run (k : ℕ) : Option (List Insn) := do
  let (first, start) ← b.runs[k]?
  let stop := match b.runs[k + 1]? with
    | some r => r.2.toNat
    | none => b.lens.length
  let lens ← slice b.lens start.toNat stop
  return scan first lens

def take_vec : Option (List Insn) := ((List.range b.runs.length).mapM b.run).map List.flatten

def push_wide (addr : U64) (length : BitVec 32) : Option BodyInsns :=
  match b.wide with
  | some wide => some { b with wide := some (wide ++ [(addr, length)]) }
  | none => b.take_vec.map fun wide => { b with
        runs := []
        lens := []
        wide := some (wide ++ [(addr, length)]) }

def push (addr : U64) (length : BitVec 32) : Option BodyInsns :=
  if length.toNat < 256 ∧ b.wide.isNone then
    some { b with
      runs :=
        if b.last ≠ some addr then b.runs ++ [(addr, BitVec.ofNat 32 b.lens.length)] else b.runs
      lens := b.lens ++ [length.setWidth 8]
      last := if 0 < length then checked_add addr (length.setWidth 64) else none }
  else b.push_wide addr length

def into_vec : Option (List Insn) :=
  match b.wide with
  | some wide => some wide
  | none => b.take_vec

end BodyInsns

def range (r : Insn) : AddressRange := ⟨⟨SpaceId.ram, r.1⟩, r.2.setWidth 64⟩

def collect (insns : List Insn) : AddressSet := .fromIter (insns.map range)

/-- Runs in order: the first address, then the shorter first. -/
def runLe (x y : Run) : Bool :=
  x.1 < y.1 || x.1 == y.1 && (x.2.1 < y.2.1 || x.2.1 == y.2.1 && x.2.2 ≤ y.2.2)

section Sets

-- the index that a binary search by address reports
variable (search : List Insn → U64 → Option ℕ)

def found (sorted : List Insn) (r : Insn) : Bool :=
  match search sorted r.1 with
  | some i => sorted[i]? == some r
  | none => false

/-- A run appended, or found among the instructions before. -/
def merge_run (sorted : List Insn) : List Insn → Option (List Insn)
  | [] => some sorted
  | r :: rest =>
    match sorted.getLast? with
    | none => some (sorted ++ r :: rest)
    | some last =>
      if last.1 < r.1 then some (sorted ++ r :: rest)
      else if last = r then some (sorted ++ rest)
      else if (r :: rest).all (found search sorted) then some sorted
      else none

def chained (p r : Insn) : Bool := 0 < p.2 && checked_add p.1 (p.2.setWidth 64) == some r.1

def runs_from (i : ℕ) (p : Insn) (run : Run) : List Insn → List Run
  | [] => [run]
  | r :: rest =>
    if chained p r then runs_from (i + 1) r (run.1, run.2.1 + 1, run.2.2) rest
    else run :: runs_from (i + 1) r (r.1, 1, BitVec.ofNat 32 i) rest

def body_runs : List Insn → List Run
  | [] => []
  | r :: rest => runs_from 1 r (r.1, 1, 0) rest

def body_set (body : List Insn) : Option AddressSet := do
  let runs := body_runs body
  if runs.length ≤ 1 then return collect body
  let parts ← (runs.mergeSort runLe).mapM fun run =>
    slice body run.2.2.toNat (run.2.2 + run.2.1).toNat
  match parts.foldlM (merge_run search) [] with
  | some sorted => return collect sorted
  | none => return collect ((body.mergeSort fun r s => r.1 ≤ s.1).destutter (· ≠ ·))

namespace BodyInsns

/-- The first address, the number of instructions and the index of run `k`. -/
def run_key (b : BodyInsns) (k : ℕ) : Option Run := do
  let (first, start) ← b.runs[k]?
  let stop := match b.runs[k + 1]? with
    | some r => r.2
    | none => BitVec.ofNat 32 b.lens.length
  return (first, stop - start, BitVec.ofNat 32 k)

def into_set (b : BodyInsns) : Option AddressSet := do
  if b.wide.isSome then return ← body_set search (← b.into_vec)
  if b.runs.length ≤ 1 then return collect (← b.into_vec)
  let runs ← (List.range b.runs.length).mapM b.run_key
  let parts ← (runs.mergeSort runLe).mapM fun run => b.run run.2.2.toNat
  match parts.foldlM (merge_run search) [] with
  | some sorted => return collect sorted
  | none => body_set search (← b.into_vec)

def packed (pushes : List Insn) : Option BodyInsns :=
  pushes.foldlM (fun b r => b.push r.1 r.2) default

end BodyInsns

variable {search} {sorted : List Insn} {run : List Insn} {parts : List (List Insn)}
  {sorted' : List Insn}

theorem mem_of_found {r : Insn} (h : found search sorted r) : r ∈ sorted := by
  rw [found] at h
  split at h
  · exact mem_of_getElem? (eq_of_beq h)
  · cases h

theorem mem_merge_run (h : merge_run search sorted run = some sorted')
    (r : Insn) : r ∈ sorted' ↔ r ∈ sorted ∨ r ∈ run := by
  cases run with
  | nil =>
    cases h
    exact (or_iff_left not_mem_nil).symm
  | cons s rest =>
    rw [merge_run] at h
    split at h
    · cases h
      exact mem_append
    · rename_i last hlast
      split at h
      · cases h
        exact mem_append
      · split at h
        · rename_i same
          cases h
          have held : s ∈ sorted := same ▸ mem_of_getLast? hlast
          rw [mem_append, mem_cons]
          constructor
          · exact Or.imp_right .inr
          · rintro (h | rfl | h)
            · exact .inl h
            · exact .inl held
            · exact .inr h
        · split at h
          · rename_i all
            cases h
            refine ⟨.inl, fun h => h.elim id fun hr => ?_⟩
            exact mem_of_found (all_eq_true.mp all r hr)
          · cases h

theorem mem_merge_runs (h : parts.foldlM (merge_run search) sorted = some sorted') (r : Insn) :
    r ∈ sorted' ↔ r ∈ sorted ∨ ∃ run ∈ parts, r ∈ run := by
  induction parts generalizing sorted with
  | nil =>
    cases h
    simp
  | cons run parts ih =>
    obtain ⟨next, hnext, hrest⟩ := bind_eq_some_iff.mp h
    rw [ih hrest, mem_merge_run hnext, exists_mem_cons_iff, or_assoc]

theorem collect_congr {insns insns' : List Insn} (h : ∀ r, r ∈ insns ↔ r ∈ insns') :
    collect insns = collect insns' := by
  refine (Built.fromIter _).unique (.fromIter _) fun r => ?_
  simp only [mem_map, h]

theorem collect_merged {body : List Insn} (h : parts.foldlM (merge_run search) [] = some sorted)
    (hparts : ∀ r, (∃ run ∈ parts, r ∈ run) ↔ r ∈ body) : collect sorted = collect body := by
  apply collect_congr
  intro r
  rw [mem_merge_runs h, hparts]
  exact or_iff_right not_mem_nil

theorem mapM_eq_map {α β : Type} {f : α → Option β} {g : α → β} {l : List α}
    (h : ∀ x ∈ l, f x = some (g x)) : l.mapM f = some (l.map g) := by
  induction l with
  | nil => rfl
  | cons x l ih =>
    rw [mapM_cons, h x mem_cons_self, ih fun y hy => h y (mem_cons_of_mem _ hy)]
    rfl

end Sets

section Cuts

variable {search : List Insn → U64 → Option ℕ} {body : List Insn}

def cut (body : List Insn) (run : Run) : List Insn :=
  (body.take (run.2.2 + run.2.1).toNat).drop run.2.2.toNat

theorem take_drop_append_drop {α : Type} {l : List α} {i j : ℕ} (hij : i ≤ j) (hj : j ≤ l.length) :
    (l.take j).drop i ++ l.drop j = l.drop i := by
  have whole := congrArg (List.drop i) (take_append_drop j l)
  rwa [drop_append_of_le_length (by rw [length_take]; omega)] at whole

theorem slice_cut {run : Run} {i : ℕ} (hstart : run.2.2.toNat ≤ i)
    (hend : (run.2.2 + run.2.1).toNat = i) (hi : i ≤ body.length) :
    slice body run.2.2.toNat (run.2.2 + run.2.1).toNat = some (cut body run) := by
  rw [slice, if_pos (hend ▸ ⟨hstart, hi⟩), cut]

theorem toNat_succ {x : BitVec 32} {i : ℕ} (h : x.toNat = i) (hi : i + 1 < 2 ^ 32) :
    (x + 1).toNat = i + 1 := by
  rw [BitVec.toNat_add, h]
  exact Nat.mod_eq_of_lt hi

theorem runs_from_cut (hbody : body.length < 2 ^ 32) (rest : List Insn) (i : ℕ) (p : Insn)
    (run : Run) (hrest : body.drop i = rest) (hi : i ≤ body.length)
    (hstart : run.2.2.toNat ≤ i) (hend : (run.2.2 + run.2.1).toNat = i) :
    (∀ x ∈ runs_from i p run rest, slice body x.2.2.toNat (x.2.2 + x.2.1).toNat = some (cut body x)) ∧
      ((runs_from i p run rest).map (cut body)).flatten = body.drop run.2.2.toNat := by
  induction rest generalizing i p run with
  | nil =>
    have all : i = body.length := le_antisymm hi (drop_eq_nil_iff.mp hrest)
    constructor
    · intro x hx
      rw [mem_singleton.mp hx]
      exact slice_cut hstart hend hi
    · rw [runs_from, map_singleton, flatten_singleton, cut, hend, all, take_length]
  | cons r rest ih =>
    have more : i < body.length := by
      by_contra none
      rw [drop_eq_nil_iff.mpr (by omega)] at hrest
      cases hrest
    have hrest' : body.drop (i + 1) = rest := by
      rw [← drop_drop, hrest, drop_one, tail_cons]
    rw [runs_from]
    split
    · have hend' : (run.2.2 + (run.2.1 + 1)).toNat = i + 1 := by
        rw [← BitVec.add_assoc]
        exact toNat_succ hend (by omega)
      exact ih (i + 1) r (run.1, run.2.1 + 1, run.2.2) hrest' more (Nat.le_succ_of_le hstart) hend'
    · have hstart' : (BitVec.ofNat 32 i).toNat = i := by
        rw [BitVec.toNat_ofNat, Nat.mod_eq_of_lt (by omega)]
      have next := ih (i + 1) r (r.1, 1, BitVec.ofNat 32 i) hrest' more
        (hstart'.le.trans (Nat.le_succ i)) (toNat_succ hstart' (by omega))
      constructor
      · intro x hx
        rcases mem_cons.mp hx with rfl | hx
        · exact slice_cut hstart hend hi
        · exact next.1 x hx
      · rw [map_cons, flatten_cons, next.2, hstart', cut, hend]
        exact take_drop_append_drop hstart hi

theorem body_runs_cut (hbody : body.length < 2 ^ 32) :
    (∀ x ∈ body_runs body, slice body x.2.2.toNat (x.2.2 + x.2.1).toNat = some (cut body x)) ∧
      ((body_runs body).map (cut body)).flatten = body := by
  cases body with
  | nil => exact ⟨fun x hx => absurd hx not_mem_nil, rfl⟩
  | cons r rest =>
    exact runs_from_cut hbody rest 1 r (r.1, 1, 0) rfl (Nat.succ_pos _) (Nat.zero_le _) rfl

theorem mem_destutter' (l : List Insn) (a r : Insn) : r ∈ l.destutter' (· ≠ ·) a ↔ r ∈ a :: l := by
  induction l generalizing a with
  | nil => rfl
  | cons b l ih =>
    by_cases same : a = b
    · subst same
      rw [destutter'_cons_neg _ (not_not_intro rfl), ih, mem_cons, mem_cons, mem_cons, or_self_left]
    · rw [destutter'_cons_pos _ same, mem_cons, ih, ← mem_cons]

theorem mem_destutter (l : List Insn) (r : Insn) : r ∈ l.destutter (· ≠ ·) ↔ r ∈ l := by
  cases l with
  | nil => rfl
  | cons a l => exact mem_destutter' l a r

theorem body_set_eq (hbody : body.length < 2 ^ 32) : body_set search body = some (collect body) := by
  obtain ⟨cuts, whole⟩ := body_runs_cut hbody
  rw [body_set]
  split
  · rfl
  · have order := mergeSort_perm (body_runs body) runLe
    rw [mapM_eq_map fun x hx => cuts x (order.subset hx), bind_eq_bind, bind_some]
    split
    · rename_i merged
      refine congrArg some (collect_merged merged fun r => ?_)
      conv_rhs => rw [← whole, mem_flatten]
      simp only [(order.map (cut body)).mem_iff]
    · refine congrArg some (collect_congr fun r => ?_)
      rw [mem_destutter, (mergeSort_perm body _).mem_iff]

end Cuts

/-- A run unpacked: its first address and its lengths. -/
abbrev Chunk := U64 × List (BitVec 8)

def lengths (chunks : List Chunk) : List (BitVec 8) := (chunks.map Prod.snd).flatten

def starts : ℕ → List Chunk → List (U64 × BitVec 32)
  | _, [] => []
  | n, c :: chunks => (c.1, BitVec.ofNat 32 n) :: starts (n + c.2.length) chunks

def unpacked (chunks : List Chunk) : List (List Insn) := chunks.map fun c => scan c.1 c.2

def stop_at : U64 → List (BitVec 8) → U64
  | a, [] => a
  | a, len :: lens => stop_at (a + len.setWidth 64) lens

structure Packs (b : BodyInsns) (chunks : List Chunk) (pushes : List Insn) : Prop where
  runs : b.runs = starts 0 chunks
  lens : b.lens = lengths chunks
  insns : (unpacked chunks).flatten = pushes
  nonempty : ∀ c ∈ chunks, c.2 ≠ []
  last : ∀ a, b.last = some a → ∃ before c, chunks = before ++ [c] ∧ stop_at c.1 c.2 = a

def Holds (b : BodyInsns) (pushes : List Insn) : Prop :=
  match b.wide with
  | some wide => wide = pushes
  | none => ∃ chunks, Packs b chunks pushes

section Chunks

variable {b : BodyInsns} {chunks : List Chunk} {pushes : List Insn}

theorem lengths_append (chunks chunks' : List Chunk) :
    lengths (chunks ++ chunks') = lengths chunks ++ lengths chunks' := by
  rw [lengths, map_append, flatten_append]
  rfl

theorem starts_append (n : ℕ) (chunks chunks' : List Chunk) : starts n (chunks ++ chunks') =
      starts n chunks ++ starts (n + (lengths chunks).length) chunks' := by
  induction chunks generalizing n with
  | nil => rfl
  | cons c chunks ih =>
    have step : (lengths (c :: chunks)).length = c.2.length + (lengths chunks).length := by
      rw [lengths, map_cons, flatten_cons, length_append]
      rfl
    rw [cons_append, starts, starts, ih, step, add_assoc, cons_append]

@[simp] theorem length_starts (n : ℕ) (chunks : List Chunk) :
    (starts n chunks).length = chunks.length := by
  induction chunks generalizing n with
  | nil => rfl
  | cons c chunks ih => rw [starts, length_cons, ih, length_cons]

theorem scan_snoc (a : U64) (lens : List (BitVec 8)) (len : BitVec 8) :
    scan a (lens ++ [len]) = scan a lens ++ [(stop_at a lens, len.setWidth 32)] := by
  induction lens generalizing a with
  | nil => rfl
  | cons l lens ih =>
    rw [cons_append, scan, ih, scan, stop_at, cons_append]

theorem stop_at_snoc (a : U64) (lens : List (BitVec 8)) (len : BitVec 8) :
    stop_at a (lens ++ [len]) = stop_at a lens + len.setWidth 64 := by
  induction lens generalizing a with
  | nil => rfl
  | cons l lens ih => exact ih (a + l.setWidth 64)

theorem length_le_lengths (h : ∀ c ∈ chunks, c.2 ≠ []) :
    chunks.length ≤ (lengths chunks).length := by
  induction chunks with
  | nil => exact Nat.zero_le _
  | cons c chunks ih =>
    have one := length_pos_iff.mpr (h c mem_cons_self)
    have rest := ih fun d hd => h d (mem_cons_of_mem _ hd)
    rw [lengths, map_cons, flatten_cons, length_append, length_cons]
    rw [lengths] at rest
    omega

theorem length_scan (a : U64) (lens : List (BitVec 8)) : (scan a lens).length = lens.length := by
  induction lens generalizing a with
  | nil => rfl
  | cons l lens ih => rw [scan, length_cons, ih, length_cons]

section

variable (h : Packs b chunks pushes)

include h

theorem Packs.length_lens : b.lens.length = pushes.length := by
  rw [h.lens, ← h.insns, lengths, unpacked, length_flatten, length_flatten, map_map, map_map]
  exact congrArg List.sum (map_congr_left fun c _ => (length_scan c.1 c.2).symm)

theorem Packs.run_append (hlen : pushes.length < 2 ^ 32)
    {before behind : List Chunk} {c : Chunk} (hc : chunks = before ++ c :: behind) :
    b.run before.length = some (scan c.1 c.2) := by
  have hlens : b.lens = lengths before ++ (c.2 ++ lengths behind) := by
    rw [h.lens, hc, lengths_append]
    rfl
  have bound := h.length_lens
  rw [hlens, length_append, length_append] at bound
  have fits {n : ℕ} (hn : n ≤ pushes.length) : (BitVec.ofNat 32 n).toNat = n := by
    rw [BitVec.toNat_ofNat, Nat.mod_eq_of_lt (by omega)]
  have hruns : b.runs = starts 0 before ++ (c.1, BitVec.ofNat 32 (lengths before).length) ::
      starts ((lengths before).length + c.2.length) behind := by
    rw [h.runs, hc, starts_append, zero_add]
    rfl
  have own : b.runs[before.length]? = some (c.1, BitVec.ofNat 32 (lengths before).length) := by
    rw [hruns, List.getElem?_append_right (length_starts 0 before).le, length_starts, Nat.sub_self]
    rfl
  have stop : (match b.runs[before.length + 1]? with
      | some r => r.2.toNat
      | none => b.lens.length) = (lengths before).length + c.2.length := by
    rw [hruns, List.getElem?_append_right (by rw [length_starts]; exact Nat.le_succ _), length_starts,
      Nat.add_sub_cancel_left, getElem?_cons_succ]
    cases behind with
    | nil =>
      rw [hlens, length_append, length_append]
      rfl
    | cons d behind => exact fits (by omega)
  rw [BodyInsns.run, own, bind_eq_bind, bind_some]
  dsimp only
  rw [stop, fits (by omega), slice, if_pos ⟨Nat.le_add_right _ _, by rw [hlens]; simp⟩, hlens,
    take_length_add_append, drop_left, take_left]
  rfl

theorem Packs.run_eq (hlen : pushes.length < 2 ^ 32) {k : ℕ}
    (hk : k < b.runs.length) : b.run k = some ((unpacked chunks).getD k []) := by
  rw [h.runs, length_starts] at hk
  have hc : chunks = chunks.take k ++ chunks[k] :: chunks.drop (k + 1) := by
    rw [getElem_cons_drop, take_append_drop]
  have run := h.run_append hlen hc
  rw [length_take, min_eq_left hk.le] at run
  rw [run, unpacked, getD_eq_getElem?_getD, getElem?_map, getElem?_eq_getElem hk]
  rfl

theorem Packs.range_unpacked :
    (List.range b.runs.length).map ((unpacked chunks).getD · []) = unpacked chunks := by
  apply ext_getElem
  · simp [h.runs, unpacked]
  · intro k hk hk'
    rw [getElem_map, getElem_range, getD_eq_getElem?_getD,
      getElem?_eq_getElem hk', getD_some]

theorem Packs.take_vec_eq (hlen : pushes.length < 2 ^ 32) : b.take_vec = some pushes := by
  rw [BodyInsns.take_vec, mapM_eq_map fun k hk => h.run_eq hlen (mem_range.mp hk),
    h.range_unpacked, map_some, h.insns]

end

theorem Holds.into_vec_eq (h : Holds b pushes) (hlen : pushes.length < 2 ^ 32) :
    b.into_vec = some pushes := by
  rw [Holds] at h
  rw [BodyInsns.into_vec]
  cases hw : b.wide with
  | some wide =>
    rw [hw] at h
    exact congrArg some h
  | none =>
    rw [hw] at h
    obtain ⟨chunks, h⟩ := h
    exact h.take_vec_eq hlen

theorem setWidth_of_lt {length : BitVec 32} (h : length.toNat < 256) {w : ℕ} :
    (length.setWidth 8).setWidth w = length.setWidth w := by
  apply BitVec.eq_of_toNat_eq
  rw [BitVec.toNat_setWidth, BitVec.toNat_setWidth, BitVec.toNat_setWidth, Nat.mod_eq_of_lt h]

theorem Packs.push (h : Packs b chunks pushes) (addr : U64) {length : BitVec 32}
    (fits : length.toNat < 256) (hwide : b.wide.isNone) :
    ∃ b' chunks', b.push addr length = some b' ∧ b'.wide = b.wide ∧
      Packs b' chunks' (pushes ++ [(addr, length)]) := by
  have same : (length.setWidth 8).setWidth 32 = length := by
    rw [setWidth_of_lt fits, BitVec.setWidth_eq]
  have ends {a : U64} (ha : (if 0 < length then checked_add addr (length.setWidth 64) else none) =
      some a) : addr + (length.setWidth 8).setWidth 64 = a := by
    split at ha
    · rw [checked_add] at ha
      split at ha
      · rw [setWidth_of_lt fits]
        exact some.inj ha
      · cases ha
    · cases ha
  rw [BodyInsns.push, if_pos ⟨fits, hwide⟩]
  by_cases chains : b.last = some addr
  · obtain ⟨before, c, rfl, hstop⟩ := h.last addr chains
    refine ⟨_, before ++ [(c.1, c.2 ++ [length.setWidth 8])], rfl, rfl, ?_⟩
    have hunpacked : unpacked (before ++ [(c.1, c.2 ++ [length.setWidth 8])]) =
        unpacked before ++ [scan c.1 c.2 ++ [(addr, length)]] := by
      rw [unpacked, map_append, map_singleton, scan_snoc, hstop, same]
      rfl
    constructor
    · rw [if_neg (not_not_intro chains), h.runs, starts_append, starts_append]
      rfl
    · rw [h.lens, lengths_append, lengths_append, append_assoc]
      simp [lengths]
    · rw [hunpacked, ← h.insns]
      simp [unpacked]
    · intro d hd
      rcases mem_append.mp hd with hd | hd
      · exact h.nonempty d (mem_append_left _ hd)
      · rw [mem_singleton.mp hd]
        exact append_ne_nil_of_right_ne_nil _ (cons_ne_nil _ _)
    · intro a ha
      refine ⟨before, _, rfl, ?_⟩
      rw [stop_at_snoc, hstop]
      exact ends ha
  · refine ⟨_, chunks ++ [(addr, [length.setWidth 8])], rfl, rfl, ?_⟩
    constructor
    · rw [if_pos chains, h.runs, starts_append, h.lens, zero_add]
      rfl
    · rw [h.lens, lengths_append]
      rfl
    · rw [unpacked, map_append, flatten_append, ← h.insns, map_singleton,
        flatten_singleton, scan, scan, same]
      rfl
    · intro d hd
      rcases mem_append.mp hd with hd | hd
      · exact h.nonempty d hd
      · rw [mem_singleton.mp hd]
        exact cons_ne_nil _ _
    · intro a ha
      exact ⟨chunks, _, rfl, ends ha⟩

theorem Holds.push (h : Holds b pushes) (hlen : pushes.length < 2 ^ 32) (addr : U64)
    (length : BitVec 32) :
    ∃ b', b.push addr length = some b' ∧ Holds b' (pushes ++ [(addr, length)]) := by
  have vec := h.into_vec_eq hlen
  rw [Holds] at h
  cases hw : b.wide with
  | some wide =>
    rw [hw] at h
    refine ⟨{ b with wide := some (wide ++ [(addr, length)]) }, ?_, congrArg (· ++ _) h⟩
    rw [BodyInsns.push, if_neg (by rw [hw]; simp), BodyInsns.push_wide, hw]
  | none =>
    rw [hw] at h
    obtain ⟨chunks, h⟩ := h
    by_cases fits : length.toNat < 256
    · obtain ⟨b', chunks', hpush, hwide, packs⟩ := h.push addr fits (by rw [hw]; rfl)
      refine ⟨b', hpush, ?_⟩
      rw [Holds, hwide, hw]
      exact ⟨chunks', packs⟩
    · refine ⟨⟨[], [], some (pushes ++ [(addr, length)]), b.last⟩, ?_, rfl⟩
      rw [BodyInsns.push, if_neg fun h => fits h.1, BodyInsns.push_wide, hw, h.take_vec_eq hlen]
      rfl

theorem exists_packed (pushes : List Insn) (hlen : pushes.length < 2 ^ 32) :
    ∃ b, BodyInsns.packed pushes = some b ∧ Holds b pushes := by
  induction pushes using List.reverseRecOn with
  | nil => exact ⟨.default, rfl, [], rfl, rfl, rfl, nofun, nofun⟩
  | append_singleton pushes r ih =>
    rw [length_append, length_singleton] at hlen
    obtain ⟨b, hb, holds⟩ := ih (by omega)
    obtain ⟨b', hpush, holds'⟩ := holds.push (by omega) r.1 r.2
    refine ⟨b', ?_, holds'⟩
    rw [BodyInsns.packed] at hb ⊢
    rw [foldlM_append, hb, bind_eq_bind, bind_some, foldlM_cons, hpush]
    rfl

variable {search : List Insn → U64 → Option ℕ}

theorem run_key_eq {k : ℕ} (hk : k < b.runs.length) :
    ∃ first count, b.run_key k = some (first, count, BitVec.ofNat 32 k) := by
  rw [BodyInsns.run_key, getElem?_eq_getElem hk]
  exact ⟨_, _, rfl⟩

theorem Packs.into_set_eq (h : Packs b chunks pushes) (hlen : pushes.length < 2 ^ 32)
    (hwide : b.wide = none) : b.into_set search = some (collect pushes) := by
  have vec : b.into_vec = some pushes := by
    rw [BodyInsns.into_vec, hwide]
    exact h.take_vec_eq hlen
  have few : b.runs.length < 2 ^ 32 := by
    have le := length_le_lengths h.nonempty
    rw [← h.lens, h.length_lens] at le
    rw [h.runs, length_starts]
    omega
  let part (run : Run) : List Insn := (unpacked chunks).getD run.2.2.toNat []
  have index {k : ℕ} (hk : k < b.runs.length) : (BitVec.ofNat 32 k).toNat = k := by
    rw [BitVec.toNat_ofNat, Nat.mod_eq_of_lt (hk.trans few)]
  choose! first count key using fun k (hk : k < b.runs.length) => run_key_eq hk
  let keys := (List.range b.runs.length).map fun k => (first k, count k, BitVec.ofNat 32 k)
  have order : (keys.mergeSort runLe).Perm keys := mergeSort_perm keys runLe
  have parts : (keys.mergeSort runLe).mapM (fun run => b.run run.2.2.toNat) =
      some ((keys.mergeSort runLe).map part) := by
    apply mapM_eq_map
    intro x hx
    obtain ⟨k, hk, rfl⟩ := mem_map.mp (order.subset hx)
    have small := mem_range.mp hk
    exact h.run_eq hlen (by rwa [index small])
  have place : keys.map part = unpacked chunks := by
    rw [map_map, ← h.range_unpacked]
    apply map_congr_left
    intro k hk
    exact congrArg (fun i => (unpacked chunks).getD i []) (index (mem_range.mp hk))
  have perm : ((keys.mergeSort runLe).map part).Perm (unpacked chunks) := place ▸ order.map part
  have all (r : Insn) : (∃ run ∈ (keys.mergeSort runLe).map part, r ∈ run) ↔ r ∈ pushes := by
    rw [← h.insns, mem_flatten]
    simp only [perm.mem_iff]
  rw [BodyInsns.into_set, hwide, vec, if_neg (by simp)]
  split
  · rfl
  · rw [mapM_eq_map fun k hk => key k (mem_range.mp hk), bind_eq_bind, bind_some,
      parts, bind_eq_bind, bind_some]
    split
    · rename_i merged
      exact congrArg some (collect_merged merged all)
    · exact body_set_eq hlen

theorem Holds.into_set_eq (h : Holds b pushes) (hlen : pushes.length < 2 ^ 32) :
    b.into_set search = some (collect pushes) := by
  have vec := h.into_vec_eq hlen
  rw [Holds] at h
  cases hw : b.wide with
  | some wide =>
    rw [BodyInsns.into_set, hw, vec, if_pos (isSome_some), bind_eq_bind,
      bind_some, body_set_eq hlen]
  | none =>
    rw [hw] at h
    obtain ⟨chunks, h⟩ := h
    exact h.into_set_eq hlen hw

end Chunks

/-- The pushes come back in order, and both sets are the set of the ranges pushed. -/
theorem packed_gives_back (search : List Insn → U64 → Option ℕ) (pushes : List Insn)
    (hlen : pushes.length ≤ 2 ^ 32 - 1) :
    ∃ b, BodyInsns.packed pushes = some b ∧ b.into_vec = some pushes ∧
      b.into_set search = some (collect pushes) ∧ body_set search pushes = some (collect pushes) := by
  have bound : pushes.length < 2 ^ 32 := by omega
  obtain ⟨b, hb, holds⟩ := exists_packed pushes bound
  exact ⟨b, hb, holds.into_vec_eq bound, holds.into_set_eq bound, body_set_eq bound⟩

/-- A block start walked again, and a length past a byte. -/
theorem packed_gives_back_repeats :
    ∃ b, BodyInsns.packed [(0x1000, 4), (0x1004, 2), (0x1000, 4), (0x1006, 300)] = some b ∧
      b.into_vec = some [(0x1000, 4), (0x1004, 2), (0x1000, 4), (0x1006, 300)] ∧
      b.into_set (fun _ _ => none) =
        some (collect [(0x1000, 4), (0x1004, 2), (0x1000, 4), (0x1006, 300)]) ∧
      body_set (fun _ _ => none) [(0x1000, 4), (0x1004, 2), (0x1000, 4), (0x1006, 300)] =
        some (collect [(0x1000, 4), (0x1004, 2), (0x1000, 4), (0x1006, 300)]) :=
  packed_gives_back _ _ (by decide)

end PackedBodies
