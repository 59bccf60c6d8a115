import Reargo.CacheKeys

/-!
# Cache hits over whole runs

Every cache file holds results of the bytes both its keys stand for, as long as each
program is stored with the digest of the bytes it was loaded from.
-/
namespace CacheRuns

open RelyGuarantee AnalysisCache CacheKeys Option

section Commands

variable {P C D R : Type} [DecidableEq P] [DecidableEq C] [DecidableEq D] {len : C → ℕ}
  {blake3 : C → D} {analyse : C → R} {sidecarPath : P → P}

theorem ends_read (hinj : Function.Injective blake3) (e : Entry P C) {w₀ w : World P C D R}
    {g : Notes P C} (hi : Valid len blake3 analyse w) (hle : Later w₀ w)
    (he : EntryOk w₀ w e) :
    Ends len blake3 analyse (read len blake3 sidecarPath e) (fun w' g' x =>
      (∀ r, x.1 = some r → ∃ f, Seen w₀ w' e.ask.canonical f ∧ r = analyse f.contents) ∧
        FullOk len blake3 e w' g' x.2) w g := by
  have hmiss : ∀ (w' : World P C D R), ∀ r : R, none = some r →
      ∃ f, Seen w₀ w' e.ask.canonical f ∧ r = analyse f.contents := by
    intro w' r hr
    cases hr
  apply Wp.next files_forward hi (ends_openCache e.ask.canonical)
  rintro w₁ g₁ file hl₁ hi₁ ⟨rfl, hfile⟩
  cases file with
  | none =>
    refine ⟨hmiss w₁, fun k hk => ?_⟩
    cases hk
  | some header =>
    have hok := hfile header rfl
    simp only
    split
    next hpre =>
      refine ⟨fun r hr => ?_, fun k hk => ?_⟩
      · obtain ⟨pre, hsome⟩ := isSome_iff_exists.mp hpre.1
        obtain ⟨f, hseen, hstamp⟩ := he.stat pre hsome
        have hheader : header.prekey = some pre.key := by
          rw [← hpre.2, hsome, map_some]
        obtain ⟨f', hf', hstamp', hdigest⟩ := hok.prekey pre.key hheader
        obtain ⟨c, hc, hr'⟩ := hok.stands r hr
        have hcf' : c = f'.contents := by
          apply digest_injective len hinj
          rw [← hc, hdigest]
        have hcf : f'.contents = f.contents := by
          apply hi₁.stamps _ f' hf' f (hl₁.mem hseen.mem)
          rw [hstamp', hstamp]
        refine ⟨f, hseen.widen (Later.refl w₀) hl₁, ?_⟩
        rw [hr', hcf', hcf]
      · cases hk
    · apply Wp.next files_forward hi₁ (ends_deriveFullKey e he.named hi₁)
      intro w₂ g₂ full hl₂ hi₂ hfull
      cases full with
      | none =>
        refine ⟨hmiss w₂, fun k hk => ?_⟩
        cases hk
      | some k =>
        obtain ⟨hkey, f, hseen, hdigest⟩ := hfull k rfl
        have hkept : ∀ w', Later w₂ w' → FullOk len blake3 e w' g₂ (some (some k)) := by
          intro w' hl' k' hk'
          cases hk'
          exact hkey.later hl'
        simp only
        split
        next hsame =>
          have hhit : ∀ w', Later w₂ w' → ∀ r, header.results = some r →
              ∃ f, Seen w₀ w' e.ask.canonical f ∧ r = analyse f.contents := by
            intro w' hl' r hr
            obtain ⟨c, hc, hr'⟩ := hok.stands r hr
            have hcf : c = f.contents := by
              apply digest_injective len hinj
              rw [← hc, ← hsame, hdigest]
            refine ⟨f, hseen.widen (hle.trans hl₁) hl', ?_⟩
            rw [hr', hcf]
          split
          next pre htrust hpre =>
            obtain ⟨pre', hpre', f', hf', hstamp', hdigest'⟩ := hkey.trusted htrust
            have heq : pre = pre' := some.inj (hpre.symm.trans hpre')
            rw [heq]
            apply Wp.next files_forward hi₂ (ends_writePrekey hf' hstamp' hdigest')
            rintro w₃ g₃ _ hl₃ _ rfl
            exact ⟨hhit w₃ hl₃, hkept w₃ hl₃⟩
          · exact ⟨hhit w₂ (Later.refl w₂), hkept w₂ (Later.refl w₂)⟩
        · exact ⟨hmiss w₂, hkept w₂ (Later.refl w₂)⟩

theorem ends_readIfAsked (hinj : Function.Injective blake3) (a : Ask P)
    {entry : Option (Entry P C)} {w₀ w : World P C D R} {g : Notes P C}
    (hi : Valid len blake3 analyse w) (hle : Later w₀ w)
    (he : ∀ e, entry = some e → e.ask = a ∧ EntryOk w₀ w e) :
    Ends len blake3 analyse (readIfAsked len blake3 sidecarPath a entry) (fun w' g' x =>
      (∀ r, x.1 = some r → ∃ f, Seen w₀ w' a.canonical f ∧ r = analyse f.contents) ∧
        ∀ e, entry = some e → FullOk len blake3 e w' g' x.2) w g := by
  unfold readIfAsked
  split
  next e _ =>
    obtain ⟨hask, hok⟩ := he e rfl
    apply (ends_read hinj e hi hle hok).mono
    rintro w' g' x ⟨hhit, hfull⟩
    refine ⟨fun r hr => ?_, fun e' he' => ?_⟩
    · rw [← hask]
      exact hhit r hr
    · cases he'
      exact hfull
  · refine ⟨fun r hr => ?_, fun e _ k hk => ?_⟩
    · cases hr
    · cases hk

theorem ends_analyzeProgram (hinj : Function.Injective blake3) (a : Ask P)
    {w : World P C D R} (hi : Valid len blake3 analyse w) :
    Ends len blake3 analyse (analyzeProgram len blake3 sidecarPath analyse a) (fun w' _ out =>
      ∀ r, out = .hit r → ∃ f ∈ heldBetween w w' a.canonical, r = analyse f.contents)
      w unseen := by
  apply Wp.next files_forward hi (ends_entryFor a hi)
  intro w₁ g₁ entry hl₁ hi₁ hentry
  apply Wp.next files_forward hi₁
    ((ends_readIfAsked hinj a hi₁ hl₁ hentry).during files_forward a.loadAt valid_of_load
      fun _ _ _ => rfl)
  rintro w₂ g₂ ⟨loaded, cached, full⟩ - hi₂ ⟨hhit, hfull⟩
  cases cached with
  | some r =>
    intro r' hr'
    cases hr'
    obtain ⟨f, hseen, heq⟩ := hhit r rfl
    exact ⟨f, hseen.held, heq⟩
  | none =>
    apply Wp.next files_forward hi₂ (ends_loadBinary a loaded)
    rintro w₃ g₃ binary hl₃ hi₃ rfl
    cases binary with
    | none =>
      intro r hr
      cases hr
    | some c =>
      cases entry with
      | none =>
        intro r hr
        cases hr
      | some e =>
        have hfull₃ : FullOk len blake3 e w₃ g₃ full :=
          fun k hk => (hfull e rfl k hk).later hl₃
        apply Wp.next files_forward hi₃ (ends_store e (hentry e rfl).2.named c hi₃ hfull₃)
        intro w' g' _ _ _ _ r hr
        cases hr

/-- Where each program is stored with the digest of the bytes it was loaded from, the
results a command reads are of bytes the binary had since the command began. -/
theorem hits_are_held (hinj : Function.Injective blake3)
    {s : Pool (@Resp P C D R) (World P C D R) (Notes P C) (Ask P) (Outcome R)}
    (h : Reachable files HashedAsLoaded unseen
      (analyzeProgram len blake3 sidecarPath analyse) Fresh s) :
    ∀ a ∈ s.answers, ∀ r, a.answer = .hit r →
      ∃ f ∈ heldBetween a.start a.last a.asked.canonical, r = analyse f.contents := by
  have hinv : Invariant files Later (Valid len blake3 analyse) HashedAsLoaded
      (fun i w w' out => ∀ r, out = .hit r →
        ∃ f ∈ heldBetween w w' i.canonical, r = analyse f.contents) s :=
    reachable_invariant files_forward (fun w hw => valid_of_fresh hw)
      (fun i w hi => ends_analyzeProgram hinj i hi) h
  exact hinv.answers

end Commands

section Scheduled

variable {P C D R : Type} [DecidableEq P] [DecidableEq C] [DecidableEq D]

/-- Every call succeeds. -/
def succeed : (o : Op P C D R) → World P C D R → Resp o × World P C D R
  | .now, w => (w.time, w)
  | .stat p, w => ((w.files p).head?.map File.stamp, w)
  | .read p, w => ((w.files p).head?.map File.contents, w)
  | .load p, w => ((w.files p).head?.map File.contents, w)
  | .readSidecar p, w =>
    match w.files p with
    | [] => (Sidecar.notFound, w)
    | f :: _ => (Sidecar.found f.contents, w)
  | .openCache p, w => (w.cache p, w)
  | .writePrekey p key pre, w =>
    match w.cache p with
    | none => ((), w)
    | some file =>
      if file.key = key then
        ((), { w with cache := Function.update w.cache p (some { file with prekey := some pre }) })
      else ((), w)
  | .replace p file _, w => ((), { w with cache := Function.update w.cache p (some file) })
  | .readDigestMemo exe st, w =>
    match w.memo exe with
    | none => (none, w)
    | some m => if m.stamp = st then (some m.digest, w) else (none, w)
  | .writeDigestMemo exe st d, w =>
    ((), { w with memo := Function.update w.memo exe (some ⟨st, d⟩) })

theorem act_succeed (o : Op P C D R) (w : World P C D R) :
    Act o w (succeed o w).1 (succeed o w).2 := by
  cases o with
  | now => exact .now w
  | stat p =>
    cases h : (w.files p).head? with
    | none => simp only [succeed, h, map_none]; exact .statFailed w p
    | some f => simp only [succeed, h, map_some]; exact .stat w p f h
  | read p =>
    cases h : (w.files p).head? with
    | none => simp only [succeed, h, map_none]; exact .readFailed w p
    | some f => simp only [succeed, h, map_some]; exact .read w p f h
  | load p =>
    cases h : (w.files p).head? with
    | none => simp only [succeed, h, map_none]; exact .loadFailed w p
    | some f => simp only [succeed, h, map_some]; exact .load w p f h
  | readSidecar p =>
    cases h : w.files p with
    | nil => simp only [succeed, h]; exact .sidecarAbsent w p h
    | cons f rest =>
      simp only [succeed, h]
      exact .sidecar w p f (by rw [h, List.head?_cons])
  | openCache p => exact .openCache w p
  | writePrekey p key pre =>
    cases h : w.cache p with
    | none => simp only [succeed, h]; exact .prekeyFailed w p key pre
    | some file =>
      by_cases hk : file.key = key
      · subst hk
        simp only [succeed, h, if_true]
        exact .prekey w p file.key pre file h rfl
      · simp only [succeed, h, hk, if_false]
        exact .prekeyFailed w p key pre
  | replace p file program => exact .replace w p file program
  | readDigestMemo exe st =>
    cases h : w.memo exe with
    | none => simp only [succeed, h]; exact .memoFailed w exe st
    | some m =>
      by_cases hs : m.stamp = st
      · subst hs
        simp only [succeed, h, if_true]
        exact .memo w exe m h
      · simp only [succeed, h, hs, if_false]
        exact .memoFailed w exe st
  | writeDigestMemo exe st d => exact .keep w exe st d

end Scheduled

section Reread

/-- The executable is path `0` and the binary path `1`, its contents `0`. -/
def started : World ℕ ℕ ℕ ℕ :=
  ⟨10 * second, fun p => if p < 2 then [⟨0, ⟨0, 0, 0, 0, 0⟩⟩] else [], fun _ => none,
    fun _ => none⟩

theorem fresh_started : Fresh started := by
  refine ⟨fun _ => rfl, fun _ => rfl, fun p f hf g hg _ => ?_⟩
  simp only [started] at hf hg
  split at hf
  next h =>
    simp only [h, if_true, List.mem_singleton] at hf hg
    rw [hf, hg]
  · cases hf

/-- A command on the binary, its bytes loaded after the cache is read. -/
def onBinary : Ask ℕ := ⟨1, 1, 0, some none, true, .readWrite, 9⟩

def command : Ask ℕ → Cmd ℕ ℕ ℕ ℕ (Outcome ℕ) :=
  analyzeProgram (fun _ => 0) id (fun _ => 2) id

abbrev CommandTask := Task (@Resp ℕ ℕ ℕ ℕ) (World ℕ ℕ ℕ ℕ) (Notes ℕ ℕ) (Ask ℕ) (Outcome ℕ)

def begun (w : World ℕ ℕ ℕ ℕ) : CommandTask := ⟨onBinary, w, w, unseen, command onBinary⟩

def loadedFirst : World ℕ ℕ ℕ ℕ × CommandTask := (begun started).ahead note succeed 5 started

/-- Then the binary is written, with contents `1`. -/
def written : World ℕ ℕ ℕ ℕ :=
  { loadedFirst.1 with
    files := Function.update loadedFirst.1.files 1
      (⟨1, ⟨0, 0, 0, 0, 10 * second⟩⟩ :: loadedFirst.1.files 1) }

def storedFirst : World ℕ ℕ ℕ ℕ × CommandTask := loadedFirst.2.ahead note succeed 40 written

def readSecond : World ℕ ℕ ℕ ℕ × CommandTask :=
  (begun storedFirst.1).ahead note succeed 40 storedFirst.1

theorem reachable_storedFirst : Reachable files (fun _ _ => True) unseen command Fresh
    ⟨storedFirst.1, [], [⟨onBinary, started, storedFirst.2.last, .analysed 0⟩]⟩ := by
  have hall : ∀ (o : Op ℕ ℕ ℕ ℕ) (g : Notes ℕ ℕ), (fun _ _ => True) o g := fun _ _ => trivial
  have hfirst : Reachable files (fun _ _ => True) unseen command Fresh
      ⟨started, [begun started], []⟩ :=
    (Reachable.initial started fresh_started).step (.start _ onBinary)
  have hloaded := hfirst.ahead act_succeed 5 (Task.allowedAhead_of_all hall _ _ _)
  have hwritten : Reachable files (fun _ _ => True) unseen command Fresh
      ⟨written, [loadedFirst.2], []⟩ := by
    apply hloaded.step (.outside _ written ?_)
    apply Outside.write loadedFirst.1 1 ⟨1, ⟨0, 0, 0, 0, 10 * second⟩⟩ (by decide)
    intro f hf heq
    cases hf with
    | head => cases heq
    | tail _ hf => cases hf
  have hstored := hwritten.ahead act_succeed 40 (Task.allowedAhead_of_all hall _ _ _)
  exact hstored.answered rfl

/-- The first command loads the binary, the binary is written, and the command stores its
results under the digest of the new bytes. The second command reads them. -/
theorem hit_of_other_bytes : ¬ ∀ s, Reachable files (fun _ _ => True) unseen command Fresh s →
    ∀ a ∈ s.answers, ∀ r, a.answer = .hit r →
      ∃ f ∈ heldBetween a.start a.last a.asked.canonical, r = id f.contents := by
  intro h
  have hsecond := reachable_storedFirst.step (.start _ onBinary)
  have hread := hsecond.ahead act_succeed 40 (Task.allowedAhead_of_all (fun _ _ => trivial) _ _ _)
  have hdone := Reachable.answered (t := readSecond.2) (a := .hit 0) rfl hread
  obtain ⟨f, hf, heq⟩ := h _ hdone _ List.mem_cons_self 0 rfl
  have hheld : heldBetween readSecond.2.start readSecond.2.last 1 =
      [⟨1, ⟨0, 0, 0, 0, 10 * second⟩⟩] := rfl
  change f ∈ heldBetween readSecond.2.start readSecond.2.last 1 at hf
  rw [hheld, List.mem_singleton] at hf
  subst hf
  cases heq

/-- With no write, the first command stores what the second reads. -/
def storedAlone : World ℕ ℕ ℕ ℕ × CommandTask := (begun started).ahead note succeed 45 started

def readAlone : World ℕ ℕ ℕ ℕ × CommandTask :=
  (begun storedAlone.1).ahead note succeed 40 storedAlone.1

def alone : List (Answered (World ℕ ℕ ℕ ℕ) (Ask ℕ) (Outcome ℕ)) :=
  [⟨onBinary, storedAlone.1, readAlone.2.last, .hit 0⟩,
    ⟨onBinary, started, storedAlone.2.last, .analysed 0⟩]

theorem reachable_alone : Reachable files HashedAsLoaded unseen command Fresh
    ⟨readAlone.1, [], alone⟩ := by
  have hfirst : Reachable files HashedAsLoaded unseen command Fresh
      ⟨started, [begun started], []⟩ :=
    (Reachable.initial started fresh_started).step (.start _ onBinary)
  have hfirst' := hfirst.ahead act_succeed 45 (by repeat' constructor)
  have hstored := Reachable.answered (t := storedAlone.2) (a := .analysed 0) rfl hfirst'
  have hsecond := hstored.step (.start _ onBinary)
  have hread := hsecond.ahead act_succeed 40 (by repeat' constructor)
  exact Reachable.answered (t := readAlone.2) (a := .hit 0) rfl hread

theorem hits_are_held_alone :
    ∃ f ∈ heldBetween storedAlone.1 readAlone.2.last 1, 0 = id f.contents :=
  hits_are_held (fun _ _ h => h) reachable_alone ⟨onBinary, storedAlone.1, readAlone.2.last, .hit 0⟩
    List.mem_cons_self 0 rfl

end Reread

end CacheRuns
