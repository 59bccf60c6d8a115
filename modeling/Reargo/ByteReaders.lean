import Mathlib.Data.List.Basic

/-!
# Readers of a self-delimiting code

A reader takes a value off the front of a list. One that reads what a writer wrote whatever
follows, and that more input never stops, accepts the code of a value and nothing shorter or
longer.
-/
namespace ByteReaders

open List Option

open Option (some.inj)

variable {β α γ : Type}

abbrev Reader (β α : Type) := StateT (List β) Option α

/-- `p` reads `a` off `bs`, whatever comes after. -/
def Reads (p : Reader β α) (bs : List β) (a : α) : Prop :=
  ∀ rest, p.run (bs ++ rest) = some (a, rest)

/-- Where `p` succeeds it does so with more input after. -/
def Extensible (p : Reader β α) : Prop :=
  ∀ bs a rest ext, p.run bs = some (a, rest) → p.run (bs ++ ext) = some (a, rest ++ ext)

theorem reads_pure (a : α) : Reads (pure a : Reader β α) [] a := fun _ => rfl

variable {f : α → Reader β γ}

theorem Reads.bind {p : Reader β α} {bs cs : List β} {a : α} {c : γ}
    (hp : Reads p bs a) (hf : Reads (f a) cs c) : Reads (p >>= f) (bs ++ cs) c := by
  intro rest
  simp only [StateT.run_bind, append_assoc, hp (cs ++ rest)]
  exact hf rest

theorem Reads.map {p : Reader β α} {bs : List β} {a : α} {c : γ}
    (hp : Reads p bs a) (hf : Reads (f a) [] c) : Reads (p >>= f) bs c := by
  have h := hp.bind hf
  rwa [append_nil] at h

theorem extensible_pure (a : α) : Extensible (pure a : Reader β α) := by
  intro bs b rest ext h
  have heq : (a, bs) = (b, rest) := some.inj h
  obtain ⟨rfl, rfl⟩ := Prod.mk.inj heq
  rfl

theorem extensible_failure : Extensible (failure : Reader β α) := by
  intro bs a rest ext h
  exact absurd h (by simp [StateT.run, failure, Alternative.failure, StateT.failure])

theorem Extensible.bind {p : Reader β α} (hp : Extensible p)
    (hf : ∀ a, Extensible (f a)) : Extensible (p >>= f) := by
  intro bs c rest ext h
  simp only [StateT.run_bind] at h ⊢
  obtain ⟨⟨a, mid⟩, ha, hc⟩ := bind_eq_some_iff.mp h
  simp only [hp bs a mid ext ha]
  exact hf a mid c rest ext hc

theorem Extensible.ite {p q : Reader β α} {c : Prop} [Decidable c] (hp : Extensible p)
    (hq : Extensible q) : Extensible (if c then p else q) := by
  split
  · exact hp
  · exact hq

/-- The next element. -/
def item : Reader β β := fun
  | [] => none
  | b :: bs => some (b, bs)

theorem reads_item (b : β) : Reads item [b] b := fun _ => rfl

theorem extensible_item : Extensible (item : Reader β β) := by
  intro bs a rest ext h
  cases bs with
  | nil => contradiction
  | cons b bs =>
    obtain ⟨rfl, rfl⟩ := Prod.mk.inj (some.inj h)
    rfl

/-- The next `n` elements. -/
def items (n : ℕ) : Reader β (List β) := fun bs =>
  if bs.length < n then none else some (bs.take n, bs.drop n)

theorem reads_items (bs : List β) : Reads (items bs.length) bs bs := by
  intro rest
  simp [items, StateT.run]

theorem extensible_items (n : ℕ) : Extensible (items n : Reader β (List β)) := by
  intro bs a rest ext h
  simp only [items, StateT.run] at h ⊢
  split at h
  · contradiction
  · rename_i hn
    obtain ⟨rfl, rfl⟩ := Prod.mk.inj (some.inj h)
    have hle : n ≤ bs.length := Nat.not_lt.mp hn
    have hext : ¬ (bs ++ ext).length < n := by
      simp only [length_append]
      omega
    simp only [if_neg hext, take_append_of_le_length hle, drop_append_of_le_length hle]

def ofOption : Option α → Reader β α
  | some a => pure a
  | none => failure

theorem extensible_ofOption (o : Option α) : Extensible (ofOption o : Reader β α) := by
  cases o with
  | none => exact extensible_failure
  | some a => exact extensible_pure a

section Sequences

variable {σ : Type}

/-- `n` values, each read with what the one before leaves in `σ`. -/
def readAll (read : σ → Reader β (α × σ)) : ℕ → σ → Reader β (List α)
  | 0, _ => pure []
  | n + 1, s => do
    let (a, s) ← read s
    let as ← readAll read n s
    pure (a :: as)

def writeAll (write : σ → γ → List β) (next : γ → σ) : σ → List γ → List β
  | _, [] => []
  | s, c :: cs => write s c ++ writeAll write next (next c) cs

theorem reads_readAll {read : σ → Reader β (α × σ)} {write : σ → γ → List β} {next : γ → σ}
    {image : γ → α} {cs : List γ}
    (h : ∀ c ∈ cs, ∀ s, Reads (read s) (write s c) (image c, next c)) (s : σ) :
    Reads (readAll read cs.length s) (writeAll write next s cs) (cs.map image) := by
  induction cs generalizing s with
  | nil => exact reads_pure []
  | cons c cs ih =>
    have htail := ih (fun d hd => h d (mem_cons_of_mem c hd)) (next c)
    apply (h c mem_cons_self s).bind
    exact htail.map (reads_pure _)

theorem extensible_readAll {read : σ → Reader β (α × σ)} (h : ∀ s, Extensible (read s)) (n : ℕ)
    (s : σ) : Extensible (readAll read n s) := by
  induction n generalizing s with
  | zero => exact extensible_pure []
  | succ n ih =>
    apply (h s).bind
    intro as
    apply (ih as.2).bind
    intro rest
    exact extensible_pure _

theorem length_of_readAll {read : σ → Reader β (α × σ)} {n : ℕ} {s : σ} {bs rest : List β}
    {as : List α} (h : (readAll read n s).run bs = some (as, rest)) : as.length = n := by
  induction n generalizing s bs rest as with
  | zero =>
    have heq := some.inj h
    rw [← (Prod.mk.inj heq).1]
    rfl
  | succ n ih =>
    simp only [readAll, StateT.run_bind] at h
    obtain ⟨⟨⟨a, t⟩, mid⟩, -, h⟩ := bind_eq_some_iff.mp h
    obtain ⟨⟨tail, last⟩, htail, h⟩ := bind_eq_some_iff.mp h
    have heq := some.inj h
    rw [← (Prod.mk.inj heq).1, length_cons, ih htail]

def readMany (read : Reader β α) : ℕ → Reader β (List α)
  | 0 => pure []
  | n + 1 => do
    let a ← read
    let as ← readMany read n
    pure (a :: as)

theorem reads_readMany {read : Reader β α} {write : α → List β} (h : ∀ a, Reads read (write a) a)
    (as : List α) : Reads (readMany read as.length) (as.flatMap write) as := by
  induction as with
  | nil => exact reads_pure []
  | cons a as ih =>
    apply (h a).bind
    exact ih.map (reads_pure _)

theorem extensible_readMany {read : Reader β α} (h : Extensible read) (n : ℕ) :
    Extensible (readMany read n) := by
  induction n with
  | zero => exact extensible_pure []
  | succ n ih =>
    apply h.bind
    intro a
    exact ih.bind fun _ => extensible_pure _

end Sequences

/-- The value of the whole input. -/
def complete (p : Reader β α) (bs : List β) : Option α :=
  match p.run bs with
  | some (a, []) => some a
  | _ => none

variable {p : Reader β α} {bs ext : List β} {a : α}

theorem complete_iff : complete p bs = some a ↔ p.run bs = some (a, []) := by
  simp only [complete]
  split
  · rename_i b h
    rw [h]
    simp
  · rename_i hne
    constructor
    · intro h
      contradiction
    · intro h
      exact absurd h (hne a)

theorem complete_of_reads (h : Reads p bs a) : complete p bs = some a := by
  have hrun := h []
  rw [append_nil] at hrun
  exact complete_iff.mpr hrun

/-- Nothing longer is accepted. -/
theorem complete_append (h : Reads p bs a) (hext : ext ≠ []) : complete p (bs ++ ext) = none := by
  apply eq_none_iff_forall_ne_some.mpr
  intro b hb
  have hrun := (h ext).symm.trans (complete_iff.mp hb)
  exact hext (Prod.mk.inj (some.inj hrun)).2

theorem complete_shorter (h : Reads p (bs ++ ext) a) (hp : Extensible p) (hext : ext ≠ []) :
    complete p bs = none := by
  apply eq_none_iff_forall_ne_some.mpr
  intro b hb
  have hlong := hp bs b [] ext (complete_iff.mp hb)
  have hrun := h []
  rw [append_nil] at hrun
  have heq := some.inj (hrun.symm.trans hlong)
  exact hext (Prod.mk.inj heq).2.symm

end ByteReaders
