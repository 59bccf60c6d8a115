import Reargo.AnalysisCache

/-!
# What the keys of the cache stand for

A stat whose change time is well before the hashing began, and that is the same after it,
stands for the bytes hashed: a write in between would have a later change time.
-/
namespace CacheKeys

open RelyGuarantee AnalysisCache List Function

variable {P C D R : Type} {f : File C} {p : P}

/-- The clock goes on, and files written since have change times at most two seconds early. -/
structure Later (w w' : World P C D R) : Prop where
  time : w.time ≤ w'.time
  files : ∀ p, ∃ new, w'.files p = new ++ w.files p ∧ ∀ f ∈ new, w.time ≤ f.stamp.ctime + 2 * second

theorem Later.refl (w : World P C D R) : Later w w :=
  ⟨Nat.le_refl _, fun _ => ⟨[], rfl, fun _ hf => absurd hf not_mem_nil⟩⟩

theorem Later.trans {w₁ w₂ w₃ : World P C D R} (h : Later w₁ w₂) (k : Later w₂ w₃) :
    Later w₁ w₃ := by
  refine ⟨Nat.le_trans h.time k.time, fun p => ?_⟩
  obtain ⟨new, heq, hnew⟩ := h.files p
  obtain ⟨new', heq', hnew'⟩ := k.files p
  refine ⟨new' ++ new, ?_, fun f hf => ?_⟩
  · simp only [heq', heq, append_assoc]
  · rcases mem_append.mp hf with hf | hf
    · exact Nat.le_trans h.time (hnew' f hf)
    · exact hnew f hf

theorem Later.mem {w w' : World P C D R} (h : Later w w') (hf : f ∈ w.files p) : f ∈ w'.files p := by
  obtain ⟨new, heq, -⟩ := h.files p
  simp only [heq]
  exact mem_append_right new hf

def Seen (w₀ w : World P C D R) (p : P) (f : File C) : Prop :=
  ∃ w', Later w₀ w' ∧ Later w' w ∧ (w'.files p).head? = some f

theorem Seen.widen {w₀ w₁ w₂ w₃ : World P C D R} (h : Seen w₁ w₂ p f)
    (hl : Later w₀ w₁) (hr : Later w₂ w₃) : Seen w₀ w₃ p f := by
  obtain ⟨w', hl', hr', hhead⟩ := h
  exact ⟨w', hl.trans hl', hr'.trans hr, hhead⟩

theorem Seen.mem {w₀ w : World P C D R} (h : Seen w₀ w p f) : f ∈ w.files p := by
  obtain ⟨w', -, hr, hhead⟩ := h
  exact hr.mem (mem_of_mem_head? hhead)

theorem Seen.held {w₀ w : World P C D R} (h : Seen w₀ w p f) : f ∈ heldBetween w₀ w p := by
  obtain ⟨w', hl, hr, hhead⟩ := h
  obtain ⟨old, heq, -⟩ := hl.files p
  obtain ⟨new, heq', -⟩ := hr.files p
  obtain ⟨rest, hrest⟩ : ∃ rest, w'.files p = f :: rest := head?_eq_some_iff.mp hhead
  have hlen : (w'.files p).length = old.length + (w₀.files p).length := by
    simp only [heq, length_append]
  unfold heldBetween
  simp only [heq', hrest] at hlen ⊢
  apply mem_take_iff_getElem.mpr
  refine ⟨new.length, ?_, ?_⟩
  · simp only [length_append, length_cons] at hlen ⊢
    omega
  · simp only [getElem_append_right (Nat.le_refl _), Nat.sub_self, getElem_cons_zero]

/-- A stat older than the hashing's start, taken after it: the file was the same throughout. -/
theorem settled_same {w₀ w₁ w₂ : World P C D R} {g : File C}
    (hf : Seen w₀ w₁ p f) (hg : Seen w₁ w₂ p g) (hset : settled g.stamp w₀.time = true) :
    f = g := by
  obtain ⟨u, hu, hu₁, hhead⟩ := hf
  obtain ⟨v, hv₁, -, hhead'⟩ := hg
  obtain ⟨since, heq, hsince⟩ := (hu.trans (hu₁.trans hv₁)).files p
  have hold : since = [] := by
    cases since with
    | nil => rfl
    | cons g' since =>
      exfalso
      have hg' : g' = g := by
        simp only [heq, cons_append, List.head?_cons, Option.some.injEq] at hhead'
        exact hhead'
      have htime := hsince g' mem_cons_self
      have hlt := of_decide_eq_true hset
      have hnewest : (g.stamp.ctime : ℤ) ≤ g.stamp.newest := Int.le_max_right _ _
      rw [hg'] at htime
      simp only [racy, second] at hlt htime
      omega
  obtain ⟨first, hfirst, -⟩ := hu.files p
  obtain ⟨second, hsecond, -⟩ := (hu₁.trans hv₁).files p
  have hnone : second = [] := by
    have hlen := congrArg List.length heq
    simp only [hsecond, hfirst, hold, length_append, nil_append] at hlen
    exact length_eq_zero_iff.mp (by omega)
  simp only [hsecond, hnone, nil_append, hhead, Option.some.injEq] at hhead'
  exact hhead'

section Valid

variable (len : C → ℕ) (blake3 : C → D) (analyse : C → R)

structure FileOk (w : World P C D R) (p : P) (file : CacheFile P C D R) : Prop where
  stands : ∀ r, file.results = some r → ∃ c, file.key.binary = digest len blake3 c ∧ r = analyse c
  prekey : ∀ pre, file.prekey = some pre → ∃ f ∈ w.files p, f.stamp = pre.binary ∧
    file.key.binary = digest len blake3 f.contents

structure Valid (w : World P C D R) : Prop where
  stamps : ∀ p, ∀ f ∈ w.files p, ∀ g ∈ w.files p,
    f.stamp.ctime = g.stamp.ctime → f.contents = g.contents
  memo : ∀ exe m, w.memo exe = some m → ∃ f ∈ w.files exe, f.stamp = m.stamp ∧
    m.digest = digest len blake3 f.contents
  cache : ∀ p file, w.cache p = some file → FileOk len blake3 analyse w p file

variable {len blake3 analyse} {w : World P C D R}

theorem FileOk.later {w' : World P C D R} {file : CacheFile P C D R}
    (h : FileOk len blake3 analyse w p file) (hl : Later w w') :
    FileOk len blake3 analyse w' p file := by
  refine ⟨h.stands, fun pre hpre => ?_⟩
  obtain ⟨f, hf, heq⟩ := h.prekey pre hpre
  exact ⟨f, hl.mem hf, heq⟩

theorem valid_of_fresh (h : Fresh w) : Valid len blake3 analyse w := by
  refine ⟨h.stamps, fun exe m hm => ?_, fun p file hfile => ?_⟩
  · rw [h.memo exe] at hm
    cases hm
  · rw [h.cache p] at hfile
    cases hfile

variable [DecidableEq P]

theorem later_of_act {o : Op P C D R} {w' : World P C D R} {r : Resp o} (h : Act o w r w') :
    Later w w' := by
  cases h <;> exact ⟨Nat.le_refl _, (Later.refl w).files⟩

theorem later_of_outside {w' : World P C D R} (h : Outside w w') : Later w w' := by
  cases h with
  | tick t ht => exact ⟨ht, (Later.refl w).files⟩
  | write p f ht _ =>
    refine ⟨Nat.le_refl _, fun q => ?_⟩
    by_cases hq : q = p
    · subst hq
      refine ⟨[f], ?_, fun g hg => ?_⟩
      · simp only [update_self, singleton_append]
      · rw [mem_singleton.mp hg]
        exact ht
    · refine ⟨[], ?_, fun _ hg => absurd hg not_mem_nil⟩
      simp only [update_of_ne hq, nil_append]
  | evict p => exact ⟨Nat.le_refl _, (Later.refl w).files⟩
  | damage p file _ => exact ⟨Nat.le_refl _, (Later.refl w).files⟩
  | forget exe => exact ⟨Nat.le_refl _, (Later.refl w).files⟩

theorem Valid.set_cache (h : Valid len blake3 analyse w) (p : P) (file : Option (CacheFile P C D R))
    (hfile : ∀ x, file = some x → FileOk len blake3 analyse w p x) :
    Valid len blake3 analyse { w with cache := Function.update w.cache p file } := by
  refine ⟨h.stamps, h.memo, fun q x hx => ?_⟩
  by_cases hq : q = p
  · subst hq
    simp only [update_self] at hx
    exact ⟨(hfile x hx).stands, (hfile x hx).prekey⟩
  · simp only [update_of_ne hq] at hx
    exact ⟨(h.cache q x hx).stands, (h.cache q x hx).prekey⟩

theorem Valid.set_memo (h : Valid len blake3 analyse w) (exe : P)
    (memo : Option (Memo D)) (hmemo : ∀ m, memo = some m → ∃ f ∈ w.files exe,
    f.stamp = m.stamp ∧ m.digest = digest len blake3 f.contents) :
    Valid len blake3 analyse { w with memo := Function.update w.memo exe memo } := by
  refine ⟨h.stamps, fun e m hm => ?_,
    fun q x hx => ⟨(h.cache q x hx).stands, (h.cache q x hx).prekey⟩⟩
  by_cases he : e = exe
  · subst he
    simp only [update_self] at hm
    exact hmemo m hm
  · simp only [update_of_ne he] at hm
    exact h.memo e m hm

theorem Valid.outside {w' : World P C D R} (h : Valid len blake3 analyse w)
    (hout : Outside w w') : Valid len blake3 analyse w' := by
  have hl := later_of_outside hout
  cases hout with
  | tick t ht => exact ⟨h.stamps, h.memo, fun p x hx => (h.cache p x hx).later hl⟩
  | write p f ht hnew =>
    refine ⟨fun q g hg g' hg' heq => ?_, fun exe m hm => ?_,
      fun q x hx => (h.cache q x hx).later hl⟩
    · by_cases hq : q = p
      · subst hq
        simp only [update_self, mem_cons] at hg hg'
        rcases hg with rfl | hg
        · rcases hg' with rfl | hg'
          · rfl
          · exact (hnew g' hg' heq.symm).symm
        · rcases hg' with rfl | hg'
          · exact hnew g hg heq
          · exact h.stamps q g hg g' hg' heq
      · simp only [update_of_ne hq] at hg hg'
        exact h.stamps q g hg g' hg' heq
    · obtain ⟨g, hg, heq⟩ := h.memo exe m hm
      exact ⟨g, hl.mem hg, heq⟩
  | evict p => exact h.set_cache p none fun x hx => by cases hx
  | damage p file hfile =>
    apply h.set_cache p
    intro x hx
    cases hx
    refine ⟨fun r hr => ?_, (h.cache p file hfile).prekey⟩
    cases hr
  | forget exe => exact h.set_memo exe none fun m hm => by cases hm

theorem files_forward : Forward (files (P := P) (C := C) (D := D) (R := R)) Later
    (Valid len blake3 analyse) where
  refl := Later.refl
  trans := Later.trans
  act := later_of_act
  outside := later_of_outside
  kept := Valid.outside

end Valid

section Calls

variable [DecidableEq P] (len : C → ℕ) (blake3 : C → D) (analyse : C → R)

/-- The program keeps every cache file and digest true, and ends in `Q`. -/
abbrev Ends {α : Type} (p : Cmd P C D R α) (Q : World P C D R → Notes P C → α → Prop)
    (w : World P C D R) (g : Notes P C) : Prop :=
  Wp files Later (Valid len blake3 analyse) HashedAsLoaded p Q w g

variable {len blake3 analyse} {w : World P C D R} {g : Notes P C}

theorem ends_now : Ends len blake3 analyse now
    (fun w' g' start => g' = g ∧ ∃ u, Later w u ∧ Later u w' ∧ start = u.time) w g := by
  intro w₁ hl hi _ r w₂ hact
  cases hact
  exact ⟨hi, rfl, w₁, hl, Later.refl w₁, rfl⟩

theorem ends_stat (p : P) : Ends len blake3 analyse (stat p)
    (fun w' g' s => g'.hashed = g.hashed ∧ ∀ st, s = some st →
      ∃ f, Seen w w' p f ∧ f.stamp = st ∧ g'.stamped p = some f.contents) w g := by
  intro w₁ hl hi _ r w₂ hact
  cases hact with
  | statFailed =>
    refine ⟨hi, rfl, fun st hst => ?_⟩
    cases hst
  | stat _ _ f hf =>
    refine ⟨hi, rfl, fun st hst => ?_⟩
    cases hst
    refine ⟨f, ⟨w₁, hl, Later.refl w₁, hf⟩, rfl, ?_⟩
    simp only [files, note, hf, update_self, Option.map_some]

theorem ends_readBytes (p : P) : Ends len blake3 analyse (readBytes p)
    (fun w' g' c => (∀ q, q ≠ p → g'.hashed q = g.hashed q) ∧ ∀ x, c = some x →
      ∃ f, Seen w w' p f ∧ f.contents = x ∧ g'.hashed p = some x) w g := by
  intro w₁ hl hi _ r w₂ hact
  cases hact with
  | readFailed =>
    refine ⟨hi, fun q hq => update_of_ne hq _ _, fun x hx => ?_⟩
    cases hx
  | read _ _ f hf =>
    refine ⟨hi, fun q hq => update_of_ne hq _ _, fun x hx => ?_⟩
    cases hx
    exact ⟨f, ⟨w₁, hl, Later.refl w₁, hf⟩, rfl, update_self _ _ _⟩

theorem ends_readSidecar (p : P) : Ends len blake3 analyse (readSidecar p)
    (fun _ g' _ => g' = g) w g := by
  intro w₁ hl hi _ r w₂ hact
  cases hact with
  | sidecarFailed => exact ⟨hi, rfl⟩
  | sidecarAbsent _ _ _ => exact ⟨hi, rfl⟩
  | sidecar _ _ f _ => exact ⟨hi, rfl⟩

theorem ends_readDigestMemo (exe : P) (st : Stamp) {w₀ : World P C D R}
    (hseen : Seen w₀ w exe f) (hst : f.stamp = st) (hg : g.stamped exe = some f.contents) :
    Ends len blake3 analyse (readDigestMemo exe st)
      (fun _ g' m => (∀ q, q ≠ exe → g'.hashed q = g.hashed q) ∧ ∀ d, m = some d →
        d = digest len blake3 f.contents ∧ g'.hashed exe = some f.contents) w g := by
  intro w₁ hl hi _ r w₂ hact
  cases hact with
  | memoFailed =>
    refine ⟨hi, fun q _ => rfl, fun d hd => ?_⟩
    cases hd
  | memo _ _ m hm =>
    refine ⟨hi, fun q hq => update_of_ne hq _ _, fun d hd => ?_⟩
    cases hd
    obtain ⟨f', hf', hstamp, hdigest⟩ := hi.memo exe m hm
    have hsame : f'.contents = f.contents := by
      apply hi.stamps exe f' hf' f (hl.mem hseen.mem)
      rw [hstamp, hst]
    refine ⟨?_, ?_⟩
    · rw [hdigest, hsame]
    · simp only [files, note, update_self, hg]

theorem ends_writeDigestMemo {exe : P} {st : Stamp} {d : ℕ × D}
    (hmem : f ∈ w.files exe) (hst : f.stamp = st) (hd : d = digest len blake3 f.contents) :
    Ends len blake3 analyse (writeDigestMemo exe st d) (fun _ g' _ => g' = g) w g := by
  intro w₁ hl hi _ r w₂ hact
  cases hact with
  | keepFailed => exact ⟨hi, rfl⟩
  | keep =>
    refine ⟨hi.set_memo exe _ fun m hm => ?_, rfl⟩
    cases hm
    exact ⟨f, hl.mem hmem, hst, hd⟩

end Calls

section Keys

variable {len : C → ℕ} {blake3 : C → D} {analyse : C → R} {sidecarPath : P → P}

/-- What `file` takes of a path, from the contents it last hashed there. -/
def Takes [DecidableEq P] {φ : Type} (len : C → ℕ) (blake3 : C → D) (analyse : C → R)
    (got : World P C D R → World P C D R → P → φ → Option C → Prop)
    (file : P → Cmd P C D R (Option φ)) : Prop :=
  ∀ p w g, Valid len blake3 analyse w → Ends len blake3 analyse (file p)
    (fun w' g' x => (∀ q, q ≠ p → g'.hashed q = g.hashed q) ∧
      ∀ v, x = some v → got w w' p v (g'.hashed p)) w g

def TookStat (w w' : World P C D R) (p : P) (s : Stamp) (_ : Option C) : Prop :=
  ∃ f, Seen w w' p f ∧ f.stamp = s

def TookDigest (len : C → ℕ) (blake3 : C → D) (w w' : World P C D R) (p : P) (d : ℕ × D)
    (hashed : Option C) : Prop :=
  ∃ f, Seen w w' p f ∧ d = digest len blake3 f.contents ∧ hashed = some f.contents

theorem digest_injective (len : C → ℕ) (hinj : Function.Injective blake3) :
    Function.Injective (digest len blake3) := by
  intro c c' h
  exact hinj (congrArg Prod.snd h)

def Widens {φ : Type} (got : World P C D R → World P C D R → P → φ → Option C → Prop) : Prop :=
  ∀ w₀ w₁ w₂ w₃ p v h, got w₁ w₂ p v h → Later w₀ w₁ → Later w₂ w₃ → got w₀ w₃ p v h

theorem widens_stat : Widens (@TookStat P C D R) := by
  rintro w₀ w₁ w₂ w₃ p v h ⟨f, hseen, heq⟩ hl hr
  exact ⟨f, hseen.widen hl hr, heq⟩

theorem widens_digest : Widens (@TookDigest P C D R len blake3) := by
  rintro w₀ w₁ w₂ w₃ p v h ⟨f, hseen, heq⟩ hl hr
  exact ⟨f, hseen.widen hl hr, heq⟩

structure KeyOk (len : C → ℕ) (blake3 : C → D) (e : Entry P C) (w : World P C D R)
    (g : Notes P C) (k : FullKey P C D) : Prop where
  hashed : ∃ c, g.hashed e.ask.canonical = some c ∧ k.key.binary = digest len blake3 c
  trusted : k.preTrusted = true → ∃ pre, e.pre = some pre ∧ ∃ f ∈ w.files e.ask.canonical,
    f.stamp = pre.key.binary ∧ k.key.binary = digest len blake3 f.contents

variable {g : Notes P C}

theorem KeyOk.later {e : Entry P C} {w w' : World P C D R} {k : FullKey P C D}
    (h : KeyOk len blake3 e w g k) (hl : Later w w') : KeyOk len blake3 e w' g k := by
  refine ⟨h.hashed, fun htrue => ?_⟩
  obtain ⟨pre, hpre, f, hf, heq⟩ := h.trusted htrue
  exact ⟨pre, hpre, f, hl.mem hf, heq⟩

variable [DecidableEq P]

theorem takes_stat : Takes len blake3 analyse TookStat (@stat P C D R) := by
  intro p w g hi
  apply (ends_stat p).mono
  rintro w' g' s ⟨hg, hs⟩
  refine ⟨fun q _ => congrFun hg q, fun st hst => ?_⟩
  obtain ⟨f, hseen, heq, -⟩ := hs st hst
  exact ⟨f, hseen, heq⟩

theorem takes_fileDigest : Takes len blake3 analyse (TookDigest len blake3)
    (@fileDigest P C D R len blake3) := by
  intro p w g hi
  apply Wp.andThen files_forward hi (ends_stat p)
  · rintro w' g' ⟨hg, -⟩
    refine ⟨fun q _ => congrFun hg q, fun d hd => ?_⟩
    cases hd
  · rintro w₁ g₁ s hl hi₁ ⟨hg₁, -⟩
    apply Wp.andThen files_forward hi₁ (ends_readBytes p)
    · rintro w' g' ⟨hg, -⟩
      refine ⟨fun q hq => (hg q hq).trans (congrFun hg₁ q), fun d hd => ?_⟩
      cases hd
    · rintro w' g' c - - ⟨hg, hc⟩
      refine ⟨fun q hq => (hg q hq).trans (congrFun hg₁ q), fun d hd => ?_⟩
      obtain ⟨f, hseen, hcontents, hhashed⟩ := hc c rfl
      split at hd
      · cases hd
        refine ⟨f, hseen.widen hl (Later.refl w'), ?_, ?_⟩
        · rw [hcontents]
        · rw [hhashed, hcontents]
      · cases hd

theorem takes_exeDigest : Takes len blake3 analyse (TookDigest len blake3)
    (@exeDigest P C D R len blake3) := by
  intro p w g hi
  apply Wp.next files_forward hi (ends_stat p)
  rintro w₁ g₁ s hl hi₁ ⟨hg₁, hs⟩
  cases s with
  | none =>
    apply (takes_fileDigest p w₁ g₁ hi₁).mono
    rintro w' g' d ⟨hg, hd⟩
    refine ⟨fun q hq => (hg q hq).trans (congrFun hg₁ q), fun x hx => ?_⟩
    obtain ⟨f, hseen, heq⟩ := hd x hx
    exact ⟨f, hseen.widen hl (Later.refl w'), heq⟩
  | some before =>
    obtain ⟨f, hseen, hstamp, hstamped⟩ := hs before rfl
    apply Wp.next files_forward hi₁ (ends_readDigestMemo p before hseen hstamp hstamped)
    rintro w₂ g₂ memo hl₂ hi₂ ⟨hg₂, hmemo⟩
    have hframe₂ : ∀ q, q ≠ p → g₂.hashed q = g.hashed q :=
      fun q hq => (hg₂ q hq).trans (congrFun hg₁ q)
    cases memo with
    | some d =>
      obtain ⟨hd, hhashed⟩ := hmemo d rfl
      refine ⟨hframe₂, fun x hx => ?_⟩
      cases hx
      exact ⟨f, hseen.widen (Later.refl w) hl₂, hd, hhashed⟩
    | none =>
      apply Wp.next files_forward hi₂ ends_now
      rintro w₃ g₃ start hl₃ hi₃ ⟨rfl, u, -, hu₃, rfl⟩
      apply Wp.andThen files_forward hi₃ (takes_fileDigest p w₃ g₃ hi₃)
      · rintro w' g' ⟨hg, -⟩
        refine ⟨fun q hq => (hg q hq).trans (hframe₂ q hq), fun d hd => ?_⟩
        cases hd
      · rintro w₄ g₄ d - hi₄ ⟨hg₄, hd⟩
        obtain ⟨f', hseen', hdigest, hhashed⟩ := hd d rfl
        have hframe₄ : ∀ q, q ≠ p → g₄.hashed q = g.hashed q :=
          fun q hq => (hg₄ q hq).trans (hframe₂ q hq)
        have htook : ∀ w', Later w₄ w' → TookDigest len blake3 w w' p d (g₄.hashed p) := by
          intro w' hl'
          exact ⟨f', hseen'.widen (hl.trans (hl₂.trans hl₃)) hl', hdigest, hhashed⟩
        have hkept : ∀ w', Later w₄ w' → (∀ q, q ≠ p → g₄.hashed q = g.hashed q) ∧
            ∀ v, some d = some v → TookDigest len blake3 w w' p v (g₄.hashed p) := by
          intro w' hl'
          refine ⟨hframe₄, fun v hv => ?_⟩
          cases hv
          exact htook w' hl'
        by_cases hset : settled before u.time = true
        · simp only [hset, if_true]
          apply Wp.next files_forward hi₄ (ends_stat p)
          rintro w₅ g₅ now hl₅ hi₅ ⟨hg₅, hnow⟩
          have hkept₅ : (∀ q, q ≠ p → g₅.hashed q = g.hashed q) ∧ ∀ w', Later w₅ w' →
              ∀ v, some d = some v → TookDigest len blake3 w w' p v (g₅.hashed p) := by
            rw [hg₅]
            exact ⟨hframe₄, fun w' hl' => (hkept w' (hl₅.trans hl')).2⟩
          by_cases heq : now = some before
          · simp only [heq, if_true]
            obtain ⟨f'', hseen'', hstamp'', -⟩ := hnow before heq
            -- the stat is the same before and after the hashing, and well older
            have hsame : f' = f'' := by
              apply settled_same (hseen'.widen hu₃ (Later.refl w₄)) hseen''
              rw [hstamp'']
              exact hset
            have hmem : f'' ∈ w₅.files p := hseen''.mem
            apply Wp.next files_forward hi₅
              (ends_writeDigestMemo hmem hstamp'' (by rw [hdigest, hsame]))
            rintro w' g' _ hl' _ rfl
            exact ⟨hkept₅.1, hkept₅.2 w' hl'⟩
          · simp only [heq, if_false]
            exact ⟨hkept₅.1, hkept₅.2 w₅ (Later.refl w₅)⟩
        · simp only [hset, Bool.false_eq_true, if_false]
          exact hkept w₄ (Later.refl w₄)

theorem takes_keyFile (exe : P) : Takes len blake3 analyse (TookDigest len blake3)
    (@keyFile P C D R _ len blake3 exe) := by
  intro p w g hi
  unfold keyFile
  split
  · exact takes_exeDigest p w g hi
  · exact takes_fileDigest p w g hi

variable {w : World P C D R}

theorem ends_sidecarField (p : P) (hi : Valid len blake3 analyse w) :
    Ends len blake3 analyse (sidecarField p) (fun _ g' _ => g' = g) w g := by
  apply Wp.next files_forward hi (ends_readSidecar p)
  rintro w' g' r _ _ rfl
  cases r with
  | found c => rfl
  | notFound => rfl
  | failed => rfl

theorem ends_sidecarArgField (a : Ask P) (hi : Valid len blake3 analyse w) :
    Ends len blake3 analyse (sidecarArgField sidecarPath a) (fun _ g' _ => g' = g) w g := by
  unfold sidecarArgField
  split
  · rfl
  · apply Wp.next files_forward hi (ends_readSidecar _)
    rintro w' g' r _ _ rfl
    cases r with
    | found c => rfl
    | notFound => rfl
    | failed => rfl

theorem ends_cwdField {φ : Type} {got : World P C D R → World P C D R → P → φ → Option C → Prop}
    {file : P → Cmd P C D R (Option φ)} (hfile : Takes len blake3 analyse got file) (a : Ask P)
    (hi : Valid len blake3 analyse w) :
    Ends len blake3 analyse (cwdField a file)
      (fun _ g' _ => g'.hashed a.canonical = g.hashed a.canonical) w g := by
  unfold cwdField
  cases a.cwdName with
  | none => rfl
  | some here =>
    cases here with
    | none => rfl
    | some c =>
      by_cases hc : c = a.canonical
      · simp only [hc, if_true]
        rfl
      · simp only [hc, if_false]
        apply Wp.andThen files_forward hi (hfile c w g hi)
        · rintro w' g' ⟨hg, -⟩
          exact hg a.canonical (Ne.symm hc)
        · rintro w' g' v _ _ ⟨hg, -⟩
          exact hg a.canonical (Ne.symm hc)

theorem ends_deriveKey {φ : Type} {got : World P C D R → World P C D R → P → φ → Option C → Prop}
    (hwiden : Widens got) {file : P → Cmd P C D R (Option φ)}
    (hfile : Takes len blake3 analyse got file) (a : Ask P)
    (hi : Valid len blake3 analyse w) :
    Ends len blake3 analyse (deriveKey sidecarPath a file) (fun w' g' x => ∀ k, x = some k →
      (a.canonical, k.1.binary) ∈ k.2 ∧
        got w w' a.canonical k.1.binary (g'.hashed a.canonical)) w g := by
  have hnone : ∀ (w' : World P C D R) (g' : Notes P C),
      ∀ k : Fields P C φ × List (P × φ), none = some k → (a.canonical, k.1.binary) ∈ k.2 ∧
        got w w' a.canonical k.1.binary (g'.hashed a.canonical) := by
    intro w' g' k hk
    cases hk
  apply Wp.andThen files_forward hi (hfile a.exe w g hi) (fun w' g' _ => hnone w' g')
  intro w₁ g₁ exe hl₁ hi₁ _
  apply Wp.andThen files_forward hi₁ (hfile a.canonical w₁ g₁ hi₁) (fun w' g' _ => hnone w' g')
  rintro w₂ g₂ binary - hi₂ ⟨-, hgot⟩
  apply Wp.andThen files_forward hi₂ (ends_cwdField hfile a hi₂) (fun w' g' _ => hnone w' g')
  intro w₃ g₃ cwd hl₃ hi₃ hg₃
  apply Wp.andThen files_forward hi₃ (ends_sidecarField _ hi₃) (fun w' g' _ => hnone w' g')
  rintro w₄ g₄ sidecar hl₄ hi₄ rfl
  apply Wp.next files_forward hi₄ (ends_sidecarArgField a hi₄)
  rintro w' g' sidecarArg hl' _ rfl k hk
  cases hk
  refine ⟨mem_cons_of_mem _ mem_cons_self, ?_⟩
  rw [hg₃]
  exact hwiden _ _ _ _ _ _ _ (hgot binary rfl) hl₁ (hl₃.trans (hl₄.trans hl'))

theorem ends_stampsHold (start : ℕ) (l : List ((P × Stamp) × P)) (hi : Valid len blake3 analyse w) :
    Ends len blake3 analyse (stampsHold start l) (fun w' g' t => g'.hashed = g.hashed ∧
      (t = true → ∀ e ∈ l, settled e.1.2 start = true ∧
        ∃ f, Seen w w' e.1.1 f ∧ f.stamp = e.1.2)) w g := by
  induction l generalizing w g with
  | nil => exact ⟨rfl, fun _ e he => absurd he not_mem_nil⟩
  | cons e rest ih =>
    obtain ⟨⟨p, s⟩, f⟩ := e
    unfold stampsHold
    split
    next h =>
      apply Wp.next files_forward hi (ends_stat p)
      rintro w₁ g₁ now hl₁ hi₁ ⟨hg₁, hnow⟩
      split
      next hs =>
        obtain ⟨f', hseen, hstamp, -⟩ := hnow s hs
        apply ((ih hi₁).held files_forward (Later.refl w₁) hi₁).mono
        rintro w' g' t ⟨hl', -, hg', ht⟩
        refine ⟨hg'.trans hg₁, fun htrue e he => ?_⟩
        rcases mem_cons.mp he with rfl | he
        · exact ⟨h.2, f', hseen.widen (Later.refl w) hl', hstamp⟩
        · obtain ⟨hset, f'', hseen'', heq⟩ := ht htrue e he
          exact ⟨hset, f'', hseen''.widen hl₁ (Later.refl w'), heq⟩
      · refine ⟨hg₁, fun h => ?_⟩
        cases h
    · refine ⟨rfl, fun h => ?_⟩
      cases h

theorem ends_preTrustedOf (pre : Option (PreKey P C)) (files : List P) (start : ℕ)
    (hi : Valid len blake3 analyse w) :
    Ends len blake3 analyse (preTrustedOf pre files start) (fun w' g' t => g'.hashed = g.hashed ∧
      (t = true → ∃ k, pre = some k ∧ ∀ e ∈ k.stamps, settled e.2 start = true ∧
        ∃ f, Seen w w' e.1 f ∧ f.stamp = e.2)) w g := by
  cases pre with
  | none =>
    refine ⟨rfl, fun h => ?_⟩
    cases h
  | some pre =>
    simp only [preTrustedOf, preTrusted]
    split
    next hlen =>
      apply (ends_stampsHold start _ hi).mono
      rintro w' g' t ⟨hg, ht⟩
      refine ⟨hg, fun htrue => ⟨pre, rfl, fun e he => ?_⟩⟩
      obtain ⟨n, hn, rfl⟩ := mem_iff_getElem.mp he
      have hn' : n < (pre.stamps.zip files).length := by
        simp only [length_zip, hlen, Nat.min_self]
        exact hlen ▸ hn
      have hmem := getElem_mem hn'
      simp only [getElem_zip] at hmem
      exact ht htrue _ hmem
    · refine ⟨rfl, fun h => ?_⟩
      cases h

def Named (a : Ask P) (pre : Option (PreKey P C)) : Prop :=
  ∀ k, pre = some k → (a.canonical, k.key.binary) ∈ k.stamps

theorem ends_deriveFullKey (e : Entry P C) (hnamed : Named e.ask e.pre)
    (hi : Valid len blake3 analyse w) :
    Ends len blake3 analyse (deriveFullKey len blake3 sidecarPath e) (fun w' g' full =>
      ∀ k, full = some k → KeyOk len blake3 e w' g' k ∧
        ∃ f, Seen w w' e.ask.canonical f ∧ k.key.binary = digest len blake3 f.contents) w g := by
  apply Wp.next files_forward hi ends_now
  rintro w₁ g₁ start hl₁ hi₁ ⟨rfl, u, -, hu₁, rfl⟩
  apply Wp.andThen files_forward hi₁
    (ends_deriveKey widens_digest (takes_keyFile e.ask.exe) e.ask hi₁)
  · intro w' g' _ k hk
    cases hk
  · rintro w₂ g₂ ⟨key, files⟩ - hi₂ hkey
    obtain ⟨-, f, hseen, hdigest, hhashed⟩ := hkey (key, files) rfl
    apply Wp.next files_forward hi₂ (ends_preTrustedOf e.pre _ _ hi₂)
    rintro w' g' t hl' _ ⟨hg', ht⟩ k hk
    cases hk
    refine ⟨⟨⟨f.contents, ?_, hdigest⟩, fun htrue => ?_⟩, f, hseen.widen hl₁ hl', hdigest⟩
    · rw [hg', hhashed]
    · obtain ⟨pre, hpre, hstamps⟩ := ht htrue
      obtain ⟨hset, f', hseen', hstamp⟩ := hstamps _ (hnamed pre hpre)
      -- the binary's stat held from before the hashing to after it
      have hsame : f = f' := by
        apply settled_same (hseen.widen hu₁ (Later.refl w₂)) hseen'
        rw [hstamp]
        exact hset
      exact ⟨pre, hpre, f, hsame ▸ hseen'.mem, hsame ▸ hstamp, hdigest⟩

structure EntryOk (w₀ w : World P C D R) (e : Entry P C) : Prop where
  named : Named e.ask e.pre
  stat : ∀ pre, e.pre = some pre → ∃ f, Seen w₀ w e.ask.canonical f ∧ f.stamp = pre.key.binary

theorem ends_entryFor (a : Ask P) (hi : Valid len blake3 analyse w) :
    Ends len blake3 analyse (entryFor sidecarPath a)
      (fun w' _ entry => ∀ e, entry = some e → e.ask = a ∧ EntryOk w w' e) w g := by
  unfold entryFor
  split
  · have hpre : Ends len blake3 analyse (preKey sidecarPath a) (fun w' _ pre =>
        ∀ k, pre = some k → (a.canonical, k.key.binary) ∈ k.stamps ∧
          ∃ f, Seen w w' a.canonical f ∧ f.stamp = k.key.binary) w g := by
      apply Wp.andThen files_forward hi (ends_deriveKey widens_stat takes_stat a hi)
      · intro w' g' _ k hk
        cases hk
      · rintro w' g' ⟨key, stamps⟩ _ _ hkey k hk
        cases hk
        exact hkey (key, stamps) rfl
    apply Wp.next files_forward hi hpre
    rintro w' - pre _ _ hk e he
    cases he
    exact ⟨rfl, fun k hpre => (hk k hpre).1, fun k hpre => (hk k hpre).2⟩
  · intro e he
    cases he

theorem ends_openCache (p : P) :
    Ends len blake3 analyse (openCache p) (fun w' g' file => g' = g ∧ ∀ x, file = some x →
      FileOk len blake3 analyse w' p x) w g := by
  intro w₁ hl hi _ r w₂ hact
  cases hact with
  | openFailed =>
    refine ⟨hi, rfl, fun x hx => ?_⟩
    cases hx
  | openCache => exact ⟨hi, rfl, hi.cache p⟩

theorem ends_writePrekey {key : Fields P C (ℕ × D)} {pre : Fields P C Stamp} (hf : f ∈ w.files p)
    (hstamp : f.stamp = pre.binary) (hdigest : key.binary = digest len blake3 f.contents) :
    Ends len blake3 analyse (writePrekey p key pre) (fun _ g' _ => g' = g) w g := by
  intro w₁ hl hi _ r w₂ hact
  cases hact with
  | prekeyFailed => exact ⟨hi, rfl⟩
  | prekey _ _ _ _ file hfile hkey =>
    refine ⟨hi.set_cache p _ fun x hx => ?_, rfl⟩
    cases hx
    refine ⟨(hi.cache p file hfile).stands, fun pre' hpre' => ?_⟩
    cases hpre'
    refine ⟨f, hl.mem hf, hstamp, ?_⟩
    rw [← hdigest, ← hkey]

theorem ends_load (p : P) : Ends len blake3 analyse (load p) (fun _ g' _ => g' = g) w g := by
  intro w₁ hl hi _ r w₂ hact
  cases hact with
  | loadFailed => exact ⟨hi, rfl⟩
  | load _ _ f _ => exact ⟨hi, rfl⟩

theorem valid_of_load {w w' : World P C D R} {r : Resp (Op.load p)}
    (hi : Valid len blake3 analyse w) (hact : files.act (Op.load p) w r w') :
    Valid len blake3 analyse w' := by
  cases hact with
  | loadFailed => exact hi
  | load _ _ f _ => exact hi

theorem ends_loadBinary (a : Ask P) (loaded : Option (Option C)) :
    Ends len blake3 analyse (loadBinary a loaded) (fun _ g' _ => g' = g) w g := by
  cases loaded with
  | some c => rfl
  | none => exact ends_load a.canonical

/-- A full key computed earlier, or not yet. -/
def FullOk (len : C → ℕ) (blake3 : C → D) (e : Entry P C) (w : World P C D R) (g : Notes P C)
    (full : Option (Option (FullKey P C D))) : Prop :=
  ∀ k, full = some (some k) → KeyOk len blake3 e w g k

theorem ends_fullKey (e : Entry P C) (hnamed : Named e.ask e.pre)
    (hi : Valid len blake3 analyse w) {full : Option (Option (FullKey P C D))}
    (hfull : FullOk len blake3 e w g full) :
    Ends len blake3 analyse (fullKey len blake3 sidecarPath e full)
      (fun w' g' full => ∀ k, full = some k → KeyOk len blake3 e w' g' k) w g := by
  cases full with
  | some key =>
    intro k hk
    apply hfull k
    rw [hk]
  | none =>
    apply (ends_deriveFullKey e hnamed hi).mono
    intro w' g' full h k hk
    exact (h k hk).1

theorem ends_store (e : Entry P C) (hnamed : Named e.ask e.pre)
    {full : Option (Option (FullKey P C D))} (binary : C)
    (hi : Valid len blake3 analyse w) (hfull : FullOk len blake3 e w g full) :
    Ends len blake3 analyse (store len blake3 sidecarPath e full ⟨binary, analyse binary⟩)
      (fun _ _ _ => True) w g := by
  apply Wp.next files_forward hi (ends_fullKey e hnamed hi hfull)
  intro w₁ g₁ full' _ _ hkey
  cases full' with
  | none => trivial
  | some k =>
    have hok := hkey k rfl
    intro w₂ hl₂ hi₂ hsame r w₃ hact
    cases hact with
    | replaceFailed => exact ⟨hi₂, trivial⟩
    | replace =>
      refine ⟨hi₂.set_cache _ _ fun x hx => ?_, trivial⟩
      cases hx
      obtain ⟨c, hc, hdigest⟩ := hok.hashed
      have hbinary : c = binary := Option.some.inj (hc.symm.trans hsame)
      refine ⟨fun r hr => ?_, fun pre hpre => ?_⟩
      · cases hr
        exact ⟨binary, hbinary ▸ hdigest, rfl⟩
      · simp only [storedPrekey] at hpre
        split at hpre
        next htrust =>
          obtain ⟨pre', hpre', f, hf, heq⟩ := hok.trusted htrust
          rw [hpre', Option.map_some] at hpre
          cases hpre
          exact ⟨f, hl₂.mem hf, heq⟩
        · cases hpre

end Keys

end CacheKeys
