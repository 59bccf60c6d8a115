import Mathlib.Tactic
import Reargo.InsnTable

/-!
# Spans as summaries

A span's bits give back what they were packed from, and a walk over a span's instructions is
its transfer of the PF and its length.
-/
namespace SpanSummaries

open InsnTable List BitVec

section Packing

variable {n bytes : ℕ} {stop : Bool} {pfClear pfSet : Option Bool}

/-- The flags of a packed span, from bit 26 on. -/
def flagsOf (stop : Bool) (pfClear pfSet : Option Bool) : ℕ :=
  32 + (if stop then 16 else 0) + (if pfClear = none then 8 else 0) +
    (if pfSet = none then 4 else 0) + (if pfClear = some true then 2 else 0) +
    (if pfSet = some true then 1 else 0)

theorem or_disjoint (k : ℕ) (hn : n < 512) (hb : bytes < 512) :
    2 ^ 26 * k ||| (n ||| bytes <<< 9) = 2 ^ 26 * k + (512 * bytes + n) := by
  have hlow : n ||| bytes <<< 9 = 2 ^ 9 * bytes + n := by
    rw [Nat.or_comm, Nat.shiftLeft_eq, mul_comm]
    exact (Nat.two_pow_add_eq_or_of_lt hn bytes).symm
  rw [hlow]
  exact (Nat.two_pow_add_eq_or_of_lt (by omega) k).symm

theorem toNat_pack (hn : n < 512) (hb : bytes < 512) :
    (Span.pack n bytes stop pfClear pfSet).bits.toNat =
      2 ^ 26 * flagsOf stop pfClear pfSet + (512 * bytes + n) := by
  have hflags : (spanKnown ||| (if stop then spanStop else 0#32) |||
      pfFlag spanFailClear spanOutClear pfClear ||| pfFlag spanFailSet spanOutSet pfSet).toNat =
      2 ^ 26 * flagsOf stop pfClear pfSet := by
    rcases stop with _ | _ <;> rcases pfClear with _ | _ | _ <;> rcases pfSet with _ | _ | _ <;> rfl
  have hcount : (BitVec.ofNat 32 n).toNat = n := by
    rw [toNat_ofNat, Nat.mod_eq_of_lt (by omega)]
  have hshift : (BitVec.ofNat 32 bytes <<< 9).toNat = bytes <<< 9 := by
    have hbytes : (BitVec.ofNat 32 bytes).toNat = bytes := by
      rw [toNat_ofNat, Nat.mod_eq_of_lt (by omega)]
    rw [toNat_shiftLeft, hbytes, Nat.mod_eq_of_lt]
    rw [Nat.shiftLeft_eq]
    omega
  calc (Span.pack n bytes stop pfClear pfSet).bits.toNat
      = (spanKnown ||| (if stop then spanStop else 0#32) |||
          pfFlag spanFailClear spanOutClear pfClear ||| pfFlag spanFailSet spanOutSet pfSet |||
          (BitVec.ofNat 32 n ||| BitVec.ofNat 32 bytes <<< 9)).toNat := by
        congr 1
        simp only [Span.pack]
        ac_rfl
    _ = 2 ^ 26 * flagsOf stop pfClear pfSet ||| (n ||| bytes <<< 9) := by
        rw [toNat_or, hflags, toNat_or, hcount, hshift]
    _ = 2 ^ 26 * flagsOf stop pfClear pfSet + (512 * bytes + n) := or_disjoint _ hn hb

theorem count_pack (hn : n < 512) (hb : bytes < 512) :
    (Span.pack n bytes stop pfClear pfSet).count = n := by
  have hmask : (0x1ff#32).toNat = 2 ^ 9 - 1 := rfl
  rw [Span.count, toNat_and, toNat_pack hn hb, hmask, Nat.and_two_pow_sub_one_eq_mod]
  omega

theorem bytes_pack (hn : n < 512) (hb : bytes < 512) :
    (Span.pack n bytes stop pfClear pfSet).bytes = bytes := by
  have hmask : (0x1ff#32).toNat = 2 ^ 9 - 1 := rfl
  rw [Span.bytes, toNat_and, toNat_ushiftRight, toNat_pack hn hb, hmask,
    Nat.and_two_pow_sub_one_eq_mod, Nat.shiftRight_eq_div_pow]
  omega

theorem has_twoPow (s : Span) {k : ℕ} (hk : k < 32) :
    s.has (BitVec.twoPow 32 k) = decide (s.bits.toNat / 2 ^ k % 2 = 1) := by
  have hne : BitVec.twoPow 32 k ≠ 0#32 := by
    intro h
    have hbit := congrArg (fun x => x.getLsbD k) h
    simp [hk] at hbit
  rw [Span.has, and_twoPow, ← Nat.testBit_eq_decide_div_mod_eq, testBit_toNat]
  cases s.bits.getLsbD k with
  | true => simpa only [if_true, bne_iff_ne] using hne
  | false => rfl

theorem stop_pack (hn : n < 512) (hb : bytes < 512) :
    (Span.pack n bytes stop pfClear pfSet).has spanStop = stop := by
  rw [spanStop, has_twoPow _ (by decide), toNat_pack hn hb]
  rcases stop with _ | _ <;> rcases pfClear with _ | _ | _ <;> rcases pfSet with _ | _ | _ <;>
    simp [flagsOf] <;> omega

theorem pf_pack (hn : n < 512) (hb : bytes < 512) (w : Bool) :
    (Span.pack n bytes stop pfClear pfSet).pf w = if w then pfSet else pfClear := by
  have hhas : ∀ k, k < 32 → (Span.pack n bytes stop pfClear pfSet).has (BitVec.twoPow 32 k) =
      decide ((2 ^ 26 * flagsOf stop pfClear pfSet + (512 * bytes + n)) / 2 ^ k % 2 = 1) := by
    intro k hk
    rw [has_twoPow _ hk, toNat_pack hn hb]
  have hlow : ∀ j f, (2 ^ 26 * f + (512 * bytes + n)) / 2 ^ (26 + j) = f / 2 ^ j := by
    intro j f
    have hzero : (512 * bytes + n) / 2 ^ 26 = 0 := Nat.div_eq_of_lt (by omega)
    rw [Nat.pow_add, ← Nat.div_div_eq_div_mul, Nat.mul_add_div (by decide), hzero, add_zero]
  cases w with
  | true =>
    simp only [Span.pf, if_true, spanFailSet, spanOutSet]
    rw [hhas 28 (by decide), hhas 26 (by decide), hlow 2, hlow 0]
    rcases stop with _ | _ <;> rcases pfClear with _ | _ | _ <;> rcases pfSet with _ | _ | _ <;> rfl
  | false =>
    simp only [Span.pf, Bool.false_eq_true, if_false, spanFailClear, spanOutClear]
    rw [hhas 29 (by decide), hhas 27 (by decide), hlow 3, hlow 1]
    rcases stop with _ | _ <;> rcases pfClear with _ | _ | _ <;> rcases pfSet with _ | _ | _ <;> rfl

end Packing

section Pure

variable (facts : ℕ → Facts) (base limit : ℕ)

def covered (addr : ℕ) : Bool := decide (base ≤ addr) && decide (addr < limit)

/-- The address after so many instructions from one. -/
def addrAt (addr : ℕ) : ℕ → ℕ
  | 0 => addr
  | i + 1 => addrAt (addr + (facts addr).length) i

def addrsFrom (addr n : ℕ) : List ℕ := (List.range n).map (addrAt facts addr)

inductive End where
  | full
  | failed
  | x87
  | pf
  | outside
  deriving DecidableEq

def End.accepted : End → Bool
  | .full => true
  | .failed => true
  | _ => false

/-- The addresses a walk goes through, and why it ends, from the facts alone. -/
def walkFrom (check : Bool) : ℕ → ℕ → Option ℕ → Bool → List ℕ × End
  | 0, _, _, _ => ([], .full)
  | n + 1, addr, held, w =>
    if held = some (addr / pageBytes) ∨ covered base limit addr then
      if (facts addr).failed then ([], .failed)
      else if (facts addr).x87 then ([], .x87)
      else
        match (if check then (facts addr).pf w else some w) with
        | none => ([], .pf)
        | some w =>
          let rest := walkFrom check n (addr + (facts addr).length) (some (addr / pageBytes)) w
          (addr :: rest.1, rest.2)
    else ([], .outside)

/-- What a span says of the instructions below `bound`. -/
structure Summary where
  stop : Bool
  count : ℕ
  next : ℕ
  pf : Bool → Option Bool

def summarize (bound : ℕ) : ℕ → ℕ → Summary
  | 0, addr => ⟨false, 0, addr, some⟩
  | fuel + 1, addr =>
    if addr < bound then
      if covered base limit addr && !((facts addr).failed || (facts addr).x87) then
        let rest := summarize bound fuel (addr + (facts addr).length)
        ⟨rest.stop, rest.count + 1, rest.next, fun w => ((facts addr).pf w).bind rest.pf⟩
      else ⟨true, 0, addr, some⟩
    else ⟨false, 0, addr, some⟩

def summaryOf (addr : ℕ) : Summary := summarize facts base limit (boundary addr) spanBytes addr

def Summary.span (r : Summary) (addr : ℕ) : Span :=
  Span.pack r.count (r.next - addr) r.stop (r.pf false) (r.pf true)

variable {facts base limit}

theorem addrAt_add (addr i j : ℕ) :
    addrAt facts addr (i + j) = addrAt facts (addrAt facts addr i) j := by
  induction i generalizing addr with
  | zero => rw [zero_add]; rfl
  | succ i ih =>
    rw [Nat.succ_add]
    exact ih _

theorem addrAt_succ (addr i : ℕ) : addrAt facts addr (i + 1) =
    addrAt facts addr i + (facts (addrAt facts addr i)).length := addrAt_add addr i 1

theorem addrAt_lt_succ (addr i : ℕ) : addrAt facts addr i < addrAt facts addr (i + 1) := by
  rw [addrAt_succ]
  exact Nat.lt_add_of_pos_right (facts _).pos

theorem addrAt_strictMono (facts : ℕ → Facts) (addr : ℕ) : StrictMono (addrAt facts addr) :=
  strictMono_nat_of_lt_succ (addrAt_lt_succ addr)

theorem addrsFrom_succ (addr n : ℕ) : addrsFrom facts addr (n + 1) =
    addr :: addrsFrom facts (addr + (facts addr).length) n := by
  simp only [addrsFrom, range_succ_eq_map, map_cons, map_map]
  rfl

theorem addrsFrom_add (addr m n : ℕ) : addrsFrom facts addr (m + n) =
    addrsFrom facts addr m ++ addrsFrom facts (addrAt facts addr m) n := by
  simp only [addrsFrom, range_add, map_append, map_map]
  congr 1
  apply map_congr_left
  intro i _
  exact addrAt_add addr m i

/-- The walk goes on after some addresses. -/
def goOn (addrs : List ℕ) (rest : List ℕ × End) : List ℕ × End := (addrs ++ rest.1, rest.2)

theorem goOn_goOn (l l' : List ℕ) (rest : List ℕ × End) :
    goOn l (goOn l' rest) = goOn (l ++ l') rest := by
  simp only [goOn, List.append_assoc]

/-- The table has an instruction at the address that a walk goes over. -/
def Passes (facts : ℕ → Facts) (base limit addr : ℕ) : Prop :=
  covered base limit addr = true ∧ (facts addr).failed = false ∧ (facts addr).x87 = false

theorem summarize_induct {bound : ℕ} {P : ℕ → ℕ → Summary → Prop}
    (go : ∀ fuel addr rest, addr < bound → Passes facts base limit addr →
      P fuel (addr + (facts addr).length) rest → P (fuel + 1) addr
        ⟨rest.stop, rest.count + 1, rest.next, fun w => ((facts addr).pf w).bind rest.pf⟩)
    (stay : ∀ fuel addr stop, (stop = false → fuel = 0 ∨ bound ≤ addr) →
      P fuel addr ⟨stop, 0, addr, some⟩)
    (fuel addr : ℕ) : P fuel addr (summarize facts base limit bound fuel addr) := by
  induction fuel generalizing addr with
  | zero => exact stay 0 addr false fun _ => .inl rfl
  | succ fuel ih =>
    rw [summarize]
    by_cases hlt : addr < bound
    · rw [if_pos hlt]
      by_cases hok : covered base limit addr && !((facts addr).failed || (facts addr).x87)
      · rw [if_pos hok]
        simp only [Bool.and_eq_true, Bool.not_eq_true', Bool.or_eq_false_iff] at hok
        exact go fuel addr _ hlt hok (ih _)
      · rw [if_neg hok]
        exact stay _ addr true fun h => absurd h (by decide)
    · rw [if_neg hlt]
      exact stay _ addr false fun _ => .inr (not_lt.mp hlt)

theorem summarize_next (facts : ℕ → Facts) (base limit bound fuel addr : ℕ) :
    (summarize facts base limit bound fuel addr).next =
      addrAt facts addr (summarize facts base limit bound fuel addr).count :=
  summarize_induct (P := fun _ addr s => s.next = addrAt facts addr s.count)
    (fun _ _ _ _ _ ih => ih) (fun _ _ _ _ => rfl) fuel addr

theorem summarize_count_le (bound fuel addr : ℕ) :
    (summarize facts base limit bound fuel addr).count ≤ fuel :=
  summarize_induct (P := fun fuel _ s => s.count ≤ fuel)
    (fun _ _ _ _ _ ih => Nat.succ_le_succ ih) (fun _ _ _ _ => Nat.zero_le _) fuel addr

theorem summarize_below (bound fuel addr i : ℕ)
    (hi : i < (summarize facts base limit bound fuel addr).count) :
    addrAt facts addr i < bound ∧ covered base limit (addrAt facts addr i) = true := by
  refine summarize_induct (P := fun _ addr s => ∀ i < s.count, addrAt facts addr i < bound ∧
    covered base limit (addrAt facts addr i) = true) ?_ ?_ fuel addr i hi
  · intro fuel addr rest hlt hok ih i hi
    cases i with
    | zero => exact ⟨hlt, hok.1⟩
    | succ i => exact ih i (Nat.lt_of_succ_lt_succ hi)
  · exact fun _ _ _ _ i hi => absurd hi (Nat.not_lt_zero i)

theorem summarize_next_le (bound fuel addr : ℕ) (h : addr ≤ bound + 15) :
    (summarize facts base limit bound fuel addr).next ≤ bound + 15 := by
  refine summarize_induct (P := fun _ addr s => addr ≤ bound + 15 → s.next ≤ bound + 15)
    (fun _ addr _ hlt _ ih _ => ?_) (fun _ _ _ _ h => h) fuel addr h
  have hshort := (facts addr).short
  exact ih (by omega)

theorem summarize_reaches (bound fuel addr : ℕ) (hfuel : bound ≤ addr + fuel)
    (hstop : (summarize facts base limit bound fuel addr).stop = false) :
    bound ≤ (summarize facts base limit bound fuel addr).next := by
  refine summarize_induct (P := fun fuel addr s => bound ≤ addr + fuel → s.stop = false →
    bound ≤ s.next) (fun _ addr _ _ _ ih hfuel hstop => ?_) ?_ fuel addr hfuel hstop
  · have hpos := (facts addr).pos
    exact ih (by omega) hstop
  · rintro fuel addr stop hstay hfuel hstop
    rcases hstay hstop with rfl | hge
    · exact hfuel
    · exact hge

theorem walkFrom_span {bound p : ℕ} (check : Bool) (fuel addr m : ℕ) (held : Option ℕ)
    (w w' : Bool) (hpage : ∀ a, addr ≤ a → a < bound → a / pageBytes = p)
    (hpf : (if check then (summarize facts base limit bound fuel addr).pf w else some w) =
      some w') :
    walkFrom facts base limit check ((summarize facts base limit bound fuel addr).count + m)
        addr held w =
      goOn (addrsFrom facts addr (summarize facts base limit bound fuel addr).count)
        (walkFrom facts base limit check m (summarize facts base limit bound fuel addr).next
          (if (summarize facts base limit bound fuel addr).count = 0 then held else some p) w') := by
  refine summarize_induct (P := fun _ addr s => ∀ held w,
    (∀ a, addr ≤ a → a < bound → a / pageBytes = p) →
      (if check then s.pf w else some w) = some w' →
        walkFrom facts base limit check (s.count + m) addr held w =
          goOn (addrsFrom facts addr s.count) (walkFrom facts base limit check m s.next
            (if s.count = 0 then held else some p) w')) ?_ ?_ fuel addr held w hpage hpf
  · intro fuel addr rest hlt hok ih held w hpage hpf
    obtain ⟨w₁, hfirst, hrest⟩ : ∃ w₁,
        (if check then (facts addr).pf w else some w) = some w₁ ∧
        (if check then rest.pf w₁ else some w₁) = some w' := by
      cases check with
      | false => exact ⟨w, rfl, hpf⟩
      | true =>
        obtain ⟨w₁, hw₁, hw'⟩ := Option.bind_eq_some_iff.mp hpf
        exact ⟨w₁, hw₁, hw'⟩
    have hih := ih (some p) w₁ (fun a ha hlt => hpage a (by omega) hlt) hrest
    rw [add_right_comm, walkFrom]
    simp only [hok.1, or_true, if_true, hok.2.1, hok.2.2, Bool.false_eq_true, if_false,
      hfirst, hpage addr (le_refl _) hlt, hih, Nat.succ_ne_zero, ite_self,
      addrsFrom_succ]
    rfl
  · intro fuel addr stop _ held w _ hw
    rw [ite_self, Option.some.injEq] at hw
    rw [hw, Nat.zero_add]
    rfl

theorem walkFrom_span_refused {bound : ℕ} (fuel addr m : ℕ) (held : Option ℕ) (w : Bool)
    (hpf : (summarize facts base limit bound fuel addr).pf w = none) :
    (walkFrom facts base limit true ((summarize facts base limit bound fuel addr).count + m)
      addr held w).2 = .pf := by
  refine summarize_induct (P := fun _ addr s => ∀ held w, s.pf w = none →
    (walkFrom facts base limit true (s.count + m) addr held w).2 = .pf) ?_ ?_ fuel addr held w hpf
  · intro fuel addr rest _ hok ih held w hpf
    dsimp only at hpf
    rw [add_right_comm, walkFrom]
    simp only [hok.1, or_true, if_true, hok.2.1, hok.2.2, Bool.false_eq_true, if_false]
    cases hfirst : (facts addr).pf w with
    | none => rfl
    | some w₁ =>
      rw [hfirst, Option.bind_some] at hpf
      exact ih _ w₁ hpf
  · intro fuel addr stop _ held w hpf
    cases hpf

end Pure

end SpanSummaries
