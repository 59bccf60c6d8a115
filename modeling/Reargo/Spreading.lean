import Reargo.Worklist

/-!
# Marking nodes as they are pushed

A stack of marked nodes whose successors may still be unmarked. A popped node marks and
pushes its unmarked successors. When the stack is empty the marked nodes are those
reachable from the nodes marked at first.
-/
namespace Spreading

open Worklist List

def push (st : List Bool × List ℕ) (p : ℕ) : List Bool × List ℕ :=
  if marked st.1 p then st else (st.1.set p true, p :: st.2)

/-- Marks and stack; the top of the stack comes first. -/
def spread (next : ℕ → List ℕ) : ℕ → List Bool × List ℕ → List Bool × List ℕ
  | 0, st => st
  | fuel + 1, st =>
    match st.2 with
    | [] => st
    | b :: rest => spread next fuel ((next b).foldl push (st.1, rest))

/-- Every node is popped once. -/
def popsLeft (st : List Bool × List ℕ) : ℕ := st.1.count false + st.2.length

def markAll (n : ℕ) (bs : List ℕ) : List Bool :=
  bs.foldl (fun marks b => marks.set b true) (List.replicate n false)

theorem marked_markAll {n : ℕ} {bs : List ℕ} {x : ℕ} (hx : x < n) :
    marked (markAll n bs) x = true ↔ x ∈ bs := by
  have hfold : ∀ (bs : List ℕ) (marks : List Bool),
      marked (bs.foldl (fun marks b => marks.set b true) marks) x = true ↔
        marked marks x = true ∨ x ∈ bs := by
    intro bs
    induction bs with
    | nil => simp
    | cons b bs ih =>
      intro marks
      rw [foldl_cons, ih, marked_set, Bool.or_eq_true, decide_eq_true_eq, mem_cons, or_assoc]
  have hempty : ¬ marked (replicate n false) x = true := by
    unfold marked
    rw [getD_eq_getElem _ _ (by simpa using hx), getElem_replicate]
    exact Bool.false_ne_true
  unfold markAll
  rw [hfold]
  exact or_iff_right hempty

theorem length_markAll (n : ℕ) (bs : List ℕ) : (markAll n bs).length = n := by
  have hfold : ∀ (bs : List ℕ) (marks : List Bool),
      (bs.foldl (fun marks b => marks.set b true) marks).length = marks.length := by
    intro bs
    induction bs with
    | nil => exact fun _ => rfl
    | cons b bs ih =>
      intro marks
      rw [foldl_cons, ih, length_set]
  exact (hfold bs _).trans length_replicate

variable {next : ℕ → List ℕ}

structure Pushed (ps : List ℕ) (st st' : List Bool × List ℕ) : Prop where
  length : st'.1.length = st.1.length
  pops : popsLeft st' = popsLeft st
  marked_iff : ∀ x, marked st'.1 x = true ↔ marked st.1 x = true ∨ x ∈ ps
  stack : ∀ x, x ∈ st'.2 → x ∈ st.2 ∨ x ∈ ps
  kept : ∀ x, x ∈ st.2 → x ∈ st'.2
  new : ∀ x ∈ ps, marked st.1 x = true ∨ x ∈ st'.2

theorem pushed_foldl (ps : List ℕ) (st : List Bool × List ℕ) : Pushed ps st (ps.foldl push st) := by
  induction ps generalizing st with
  | nil =>
    refine ⟨rfl, rfl, fun x => ?_, fun x hx => .inl hx, fun x hx => hx, fun x hx => ?_⟩
    · exact (or_iff_left not_mem_nil).symm
    · exact absurd hx not_mem_nil
  | cons p ps ih =>
    rw [foldl_cons]
    have hrest := ih (push st p)
    by_cases hp : marked st.1 p = true
    · have hpush : push st p = st := if_pos hp
      rw [hpush] at hrest ⊢
      refine ⟨hrest.length, hrest.pops, fun x => ?_, fun x hx => ?_, hrest.kept, fun x hx => ?_⟩
      · rw [hrest.marked_iff, mem_cons]
        constructor
        · exact fun h => h.imp_right .inr
        · rintro (h | rfl | h)
          · exact .inl h
          · exact .inl hp
          · exact .inr h
      · exact (hrest.stack x hx).imp_right (mem_cons_of_mem _)
      · rcases mem_cons.mp hx with rfl | hx
        · exact .inl hp
        · exact hrest.new x hx
    · have hpush : push st p = (st.1.set p true, p :: st.2) := if_neg hp
      have hcount := count_set_false (Bool.eq_false_iff.mpr hp)
      rw [hpush] at hrest ⊢
      refine ⟨hrest.length.trans length_set, hrest.pops.trans ?_, fun x => ?_,
        fun x hx => ?_, fun x hx => hrest.kept x (mem_cons_of_mem _ hx), fun x hx => ?_⟩
      · simp only [popsLeft, length_cons]
        omega
      · rw [hrest.marked_iff, marked_set, Bool.or_eq_true, decide_eq_true_eq, mem_cons, or_assoc]
      · rcases hrest.stack x hx with hx | hx
        · rcases mem_cons.mp hx with rfl | hx
          · exact .inr mem_cons_self
          · exact .inl hx
        · exact .inr (mem_cons_of_mem _ hx)
      · rcases mem_cons.mp hx with rfl | hx
        · exact .inr (hrest.kept x mem_cons_self)
        · rcases hrest.new x hx with hm | hm
          · rw [marked_set, Bool.or_eq_true, decide_eq_true_eq] at hm
            rcases hm with hm | rfl
            · exact .inl hm
            · exact .inr (hrest.kept x mem_cons_self)
          · exact .inr hm

theorem count_spread_le (next : ℕ → List ℕ) (fuel : ℕ) (st : List Bool × List ℕ) :
    (spread next fuel st).1.count false ≤ st.1.count false := by
  have hpush : ∀ (ps : List ℕ) (st : List Bool × List ℕ),
      (ps.foldl push st).1.count false ≤ st.1.count false := by
    intro ps
    induction ps with
    | nil => exact fun st => le_refl _
    | cons p ps ih =>
      intro st
      refine (ih (push st p)).trans ?_
      unfold push
      split
      · exact le_refl _
      · next hp => exact (count_set_lt (Bool.eq_false_iff.mpr hp)).le
  induction fuel generalizing st with
  | zero => exact le_refl _
  | succ fuel ih =>
    obtain ⟨marks, stack⟩ := st
    cases stack with
    | nil => exact le_refl _
    | cons b rest => exact (ih _).trans (hpush (next b) (marks, rest))

/-- Between two pops: all marks come from the first ones, and only nodes of the stack can
have unmarked successors. -/
structure Sound (next : ℕ → List ℕ) (first : ℕ → Prop) (n : ℕ) (st : List Bool × List ℕ) : Prop where
  length : st.1.length = n
  from_first : ∀ x, x < n → marked st.1 x = true → ∃ b, first b ∧ Reachable next b x
  first_marked : ∀ b, first b → b < n ∧ marked st.1 b = true
  inside : ∀ x ∈ st.2, x < n ∧ marked st.1 x = true
  closed : ∀ b, b < n → marked st.1 b = true → b ∈ st.2 ∨ ∀ s ∈ next b, marked st.1 s = true

variable {first : ℕ → Prop} {n : ℕ}

theorem Sound.pop (hnext : ∀ b, ∀ s ∈ next b, s < n) {marks : List Bool} {b : ℕ} {rest : List ℕ}
    (h : Sound next first n (marks, b :: rest)) :
    Sound next first n ((next b).foldl push (marks, rest)) := by
  have hp := pushed_foldl (next b) (marks, rest)
  obtain ⟨hb, hbm⟩ := h.inside b mem_cons_self
  constructor
  · exact hp.length.trans h.length
  · intro x hx hm
    rcases (hp.marked_iff x).mp hm with hm | hs
    · exact h.from_first x hx hm
    · obtain ⟨c, hc, hcb⟩ := h.from_first b hb hbm
      exact ⟨c, hc, hcb.tail hs⟩
  · intro c hc
    obtain ⟨hlt, hm⟩ := h.first_marked c hc
    exact ⟨hlt, (hp.marked_iff c).mpr (.inl hm)⟩
  · intro x hx
    rcases hp.stack x hx with hx | hs
    · obtain ⟨hlt, hm⟩ := h.inside x (mem_cons_of_mem _ hx)
      exact ⟨hlt, (hp.marked_iff x).mpr (.inl hm)⟩
    · exact ⟨hnext b x hs, (hp.marked_iff x).mpr (.inr hs)⟩
  · intro c hc hm
    have hold : marked marks c = true → c ∈ ((next b).foldl push (marks, rest)).2 ∨
          ∀ s ∈ next c, marked ((next b).foldl push (marks, rest)).1 s = true := by
      intro hm
      rcases h.closed c hc hm with hmem | hall
      · rcases mem_cons.mp hmem with rfl | hmem
        · exact .inr fun s hs => (hp.marked_iff s).mpr (.inr hs)
        · exact .inl (hp.kept c hmem)
      · exact .inr fun s hs => (hp.marked_iff s).mpr (.inl (hall s hs))
    rcases (hp.marked_iff c).mp hm with hm | hs
    · exact hold hm
    · rcases hp.new c hs with hm | hmem
      · exact hold hm
      · exact .inl hmem

theorem spread_spec (hnext : ∀ b, ∀ s ∈ next b, s < n) (fuel : ℕ) (st : List Bool × List ℕ)
    (h : Sound next first n st) (hfuel : popsLeft st ≤ fuel) :
    Sound next first n (spread next fuel st) ∧ (spread next fuel st).2 = [] := by
  induction fuel generalizing st with
  | zero =>
    refine ⟨h, length_eq_zero_iff.mp ?_⟩
    have hle : st.1.count false + st.2.length ≤ 0 := hfuel
    rw [spread]
    omega
  | succ fuel ih =>
    obtain ⟨marks, stack⟩ := st
    cases stack with
    | nil => exact ⟨h, rfl⟩
    | cons b rest =>
      have hp := pushed_foldl (next b) (marks, rest)
      have hpops := hp.pops
      refine ih _ (h.pop hnext) ?_
      simp only [popsLeft, length_cons] at hfuel hpops ⊢
      omega

theorem marked_spread_iff (hnext : ∀ b, ∀ s ∈ next b, s < n) {fuel : ℕ} {st : List Bool × List ℕ}
    (h : Sound next first n st) (hfuel : popsLeft st ≤ fuel) {x : ℕ} (hx : x < n) :
    marked (spread next fuel st).1 x = true ↔ ∃ b, first b ∧ Reachable next b x := by
  obtain ⟨hsound, hempty⟩ := spread_spec hnext fuel st h hfuel
  constructor
  · exact hsound.from_first x hx
  · rintro ⟨b, hb, hr⟩
    have hend : x < n ∧ marked (spread next fuel st).1 x = true := by
      clear hx
      induction hr with
      | refl => exact hsound.first_marked b hb
      | @tail y z _ hyz ih =>
        refine ⟨hnext y z hyz, ?_⟩
        rcases hsound.closed y ih.1 ih.2 with hmem | hall
        · rw [hempty] at hmem
          exact absurd hmem not_mem_nil
        · exact hall z hyz
    exact hend.2

theorem sound_markAll (next : ℕ → List ℕ) {bs : List ℕ} (hin : ∀ b ∈ bs, b < n) :
    Sound next (fun b => b ∈ bs) n (markAll n bs, bs.reverse) := by
  constructor
  · exact length_markAll n bs
  · intro x hx hmark
    exact ⟨x, (marked_markAll hx).mp hmark, .refl⟩
  · intro b hb
    exact ⟨hin b hb, (marked_markAll (hin b hb)).mpr hb⟩
  · intro x hx
    have hmem := mem_reverse.mp hx
    exact ⟨hin x hmem, (marked_markAll (hin x hmem)).mpr hmem⟩
  · intro b hb hmark
    exact .inl (mem_reverse.mpr ((marked_markAll hb).mp hmark))

theorem popsLeft_markAll (n : ℕ) (bs : List ℕ) :
    popsLeft (markAll n bs, bs.reverse) ≤ n + bs.length := by
  have hcount := count_le_length (a := false) (l := markAll n bs)
  rw [length_markAll] at hcount
  simp only [popsLeft, length_reverse]
  omega

end Spreading
