import Mathlib.Tactic

/-!
# Division by a rounded-up reciprocal

A quotient by `d` is computed as a product by `m` over a power of two `b`, where `m * d` is
`b` plus an excess `e`. The critical numerators, those one below a multiple of `d`, decide up
to which bound this is the quotient.
-/
namespace ReciprocalDivision

section Quotient

variable {m d b e n : ℕ}

/-- The product over the quotient's part, and what the part above leaves. -/
theorem prod_split (hd : 0 < d) (hm : m * d = b + e) :
    m * n * d = n / d * b * d + (n % d * b + n * e) ∧
      (n / d + 1) * b * d = n / d * b * d + (n % d * b + b * (d - n % d)) := by
  have hr := Nat.mod_lt n hd
  have hn := Nat.div_add_mod n d
  generalize n / d = q at hn ⊢
  generalize n % d = r at hn hr ⊢
  obtain ⟨t, rfl⟩ := Nat.exists_eq_add_of_lt hr
  have hsub : r + t + 1 - r = t + 1 := by omega
  constructor
  · calc m * n * (r + t + 1) = n * (m * (r + t + 1)) := by ring
      _ = n * b + n * e := by rw [hm]; ring
      _ = _ := by rw [← hn]; ring
  · rw [hsub]
    ring

/-- The product is the quotient while the excess stays below what the remainder leaves. -/
theorem mul_div_eq_iff (hd : 0 < d) (hb : 0 < b) (hm : m * d = b + e) :
    m * n / b = n / d ↔ n * e < b * (d - n % d) := by
  obtain ⟨hprod, hend⟩ := prod_split (n := n) hd hm
  have hlow : n / d * b ≤ m * n := Nat.le_of_mul_le_mul_right (by omega) hd
  have hhigh : m * n < (n / d + 1) * b ↔ n * e < b * (d - n % d) := by
    rw [← Nat.mul_lt_mul_right hd, hprod, hend]
    omega
  have hstep : (n / d + 1) * b = n / d * b + b := by ring
  rw [Nat.div_eq_iff hb, ← hhigh]
  omega

/-- The same for the quotient rounded up, less one. -/
theorem pred_mul_div_eq_iff (hd : 0 < d) (hb : 0 < b) (hm : m * d = b + e) (he : 0 < e)
    (hn0 : 0 < n) : (m * n - 1) / b = n / d ↔ n * e ≤ b * (d - n % d) := by
  obtain ⟨hprod, hend⟩ := prod_split (n := n) hd hm
  have hpos := Nat.mul_pos hn0 he
  have hlow : n / d * b < m * n := Nat.lt_of_mul_lt_mul_right (a := d) (by omega)
  have hhigh : m * n ≤ (n / d + 1) * b ↔ n * e ≤ b * (d - n % d) := by
    rw [← Nat.mul_le_mul_right_iff hd, hprod, hend]
    omega
  have hstep : (n / d + 1) * b = n / d * b + b := by ring
  rw [Nat.div_eq_iff hb, ← hhigh]
  omega

end Quotient

/-- The last number up to `N` that is one below a multiple of `d`. -/
structure Critical (N d nc : ℕ) : Prop where
  rem : nc % d = d - 1
  le : nc ≤ N
  lt : N < nc + d

section Critical

variable {N m d b e nc n : ℕ}

theorem critical_of (hd : 0 < d) (hN : d ≤ N + 1) : Critical N d (N - (N + 1) % d) := by
  have hr := Nat.mod_lt (N + 1) hd
  have hdiv := Nat.div_add_mod (N + 1) d
  have hle := Nat.mod_le (N + 1) d
  generalize hq : (N + 1) / d = q at hdiv
  generalize (N + 1) % d = r at *
  have hq0 : 0 < q := hq ▸ Nat.div_pos hN hd
  obtain ⟨q, rfl⟩ : ∃ k, q = k + 1 := ⟨q - 1, by omega⟩
  have hnc : N - r = d * q + (d - 1) := by
    have hstep : d * (q + 1) = d * q + d := by ring
    omega
  refine ⟨?_, by omega, by omega⟩
  rw [hnc, Nat.mul_add_mod, Nat.mod_eq_of_lt (by omega)]

variable (h : Critical N d nc)

include h

theorem Critical.pred_le : d - 1 ≤ nc := h.rem ▸ Nat.mod_le nc d

theorem Critical.mod_after (hd : 0 < d) {r : ℕ} (hr : r < d) : (nc + r + 1) % d = r := by
  have hdiv := Nat.div_add_mod nc d
  have hrem := h.rem
  have hsum : nc + r + 1 = d * (nc / d + 1) + r := by
    rw [mul_add, mul_one]
    omega
  rw [hsum, Nat.mul_add_mod, Nat.mod_eq_of_lt hr]

theorem Critical.room (hd : 0 < d) (hc : nc * e < b) (hn : n ≤ N) : n * e < b * (d - n % d) := by
  have hr := Nat.mod_lt n hd
  rcases lt_or_ge nc n with hlt | hle
  · obtain ⟨r, rfl⟩ := Nat.exists_eq_add_of_lt hlt
    have hNlt := h.lt
    have hpred := h.pred_le
    rw [h.mod_after hd (by omega)]
    have hrest : (r + 1) * e ≤ nc * e := Nat.mul_le_mul_right e (by omega)
    calc (nc + r + 1) * e = nc * e + (r + 1) * e := by ring
      _ < b * 2 := by omega
      _ ≤ b * (d - r) := Nat.mul_le_mul_left b (by omega)
  · calc n * e ≤ nc * e := Nat.mul_le_mul_right e hle
      _ < b := hc
      _ ≤ b * (d - n % d) := Nat.le_mul_of_pos_right b (by omega)

theorem Critical.exact_iff (hd : 0 < d) (hb : 0 < b)
    (hm : m * d = b + e) : (∀ n ≤ N, m * n / b = n / d) ↔ nc * e < b := by
  constructor
  · intro hexact
    have hroom := (mul_div_eq_iff hd hb hm).mp (hexact nc h.le)
    rw [h.rem, show d - (d - 1) = 1 by omega, mul_one] at hroom
    exact hroom
  · intro hc n hn
    exact (mul_div_eq_iff hd hb hm).mpr (h.room hd hc hn)

theorem Critical.room_succ (hd : 0 < d) (hc : nc * e < b)
    (hlast : (N + 1) % d = d - 1 → (N + 1) * e ≤ b) : (N + 1) * e ≤ b * (d - (N + 1) % d) := by
  have hlt := h.lt
  obtain ⟨r, hr⟩ := Nat.exists_eq_add_of_le h.le
  have hmod : (N + 1) % d = r := by
    simpa [hr] using h.mod_after hd (r := r) (by omega)
  rw [hmod] at hlast ⊢
  rcases lt_or_ge r (d - 1) with hsmall | hbig
  · have hpred := h.pred_le
    have hrest : (r + 1) * e ≤ nc * e := Nat.mul_le_mul_right e (by omega)
    calc (N + 1) * e = nc * e + (r + 1) * e := by rw [hr]; ring
      _ ≤ b * 2 := by omega
      _ ≤ b * (d - r) := Nat.mul_le_mul_left b (by omega)
  · have hrd : r = d - 1 := by omega
    calc (N + 1) * e ≤ b := hlast hrd
      _ ≤ b * (d - r) := Nat.le_mul_of_pos_right b (by omega)

end Critical

theorem excess_le {d a c : ℕ} (hd : 0 < d) (ha : a % d = d - 1) (hc : 0 < c) :
    d - a * c % d ≤ c := by
  have hdiv := Nat.div_add_mod (a * c) d
  have hmod := Nat.mod_lt (a * c) hd
  have hnext : a + 1 = d * (a / d + 1) := by
    have := Nat.div_add_mod a d
    rw [mul_add]
    omega
  have hsum : a * c + c = d * ((a / d + 1) * c) := by
    calc a * c + c = (a + 1) * c := by ring
      _ = d * ((a / d + 1) * c) := by rw [hnext]; ring
  generalize (a / d + 1) * c = t at hsum
  generalize a * c / d = q at hdiv
  have hqt : q < t := Nat.lt_of_mul_lt_mul_left (a := d) (by omega)
  have hstep := Nat.mul_le_mul_left d hqt
  rw [Nat.mul_succ] at hstep
  omega

section Doubling

variable {c x : ℕ}

theorem double_div_mod (hc : 0 < c) (i : ℕ) (hi : i < 2) :
    (2 * x + i) / c = 2 * (x / c) + (if c ≤ 2 * (x % c) + i then 1 else 0) ∧
      (2 * x + i) % c = 2 * (x % c) + i - (if c ≤ 2 * (x % c) + i then c else 0) := by
  have hr := Nat.mod_lt x hc
  have hx := Nat.div_add_mod x c
  generalize x / c = q at *
  generalize x % c = r at *
  have hstep : c * (2 * q + 1) = 2 * (c * q) + c := by ring
  have heven : c * (2 * q) = 2 * (c * q) := by ring
  split
  · next hge =>
    have hsum : 2 * x + i = c * (2 * q + 1) + (2 * r + i - c) := by omega
    rw [hsum, Nat.mul_add_div hc, Nat.mul_add_mod, Nat.div_eq_of_lt (by omega),
      Nat.mod_eq_of_lt (by omega)]
    exact ⟨rfl, rfl⟩
  · next hlt =>
    have hsum : 2 * x + i = c * (2 * q) + (2 * r + i) := by omega
    rw [hsum, Nat.mul_add_div hc, Nat.mul_add_mod, Nat.div_eq_of_lt (by omega),
      Nat.mod_eq_of_lt (by omega)]
    exact ⟨rfl, (Nat.sub_zero _).symm⟩

/-- A product below the dividend, by the dividend's quotient and remainder. -/
theorem mul_lt_iff (hc : 0 < c) (k : ℕ) :
    c * k < x ↔ k < x / c ∨ (k = x / c ∧ 0 < x % c) := by
  have hr := Nat.mod_lt x hc
  have hx := Nat.div_add_mod x c
  generalize x / c = q at *
  generalize x % c = r at *
  rcases lt_trichotomy k q with hlt | rfl | hgt
  · have := Nat.mul_le_mul_left c hlt
    rw [Nat.mul_succ] at this
    exact iff_of_true (by omega) (.inl hlt)
  · simp only [lt_irrefl, true_and, false_or]
    omega
  · have := Nat.mul_le_mul_left c hgt
    rw [Nat.mul_succ] at this
    exact iff_of_false (by omega) (by omega)

end Doubling

section Search

variable {σ : Type*} (step : σ → σ) (done : σ → Bool)

/-- A loop that takes a step and then tests whether it is done. -/
def stepUntil : ℕ → σ → Option σ
  | 0, _ => none
  | fuel + 1, s => if done (step s) then some (step s) else stepUntil fuel (step s)

variable {step done} {tracks : ℕ → σ → Prop} {stop : ℕ → Prop}

theorem stepUntil_least {start : ℕ} (last : ℕ) (hlast : stop last)
    (hstep : ∀ p s, start ≤ p → p < last → (p = start ∨ ¬ stop p) → tracks p s →
      tracks (p + 1) (step s) ∧ (done (step s) = true ↔ stop (p + 1)))
    (fuel p : ℕ) (s : σ) (hp : start ≤ p) (hpl : p < last) (hfuel : last ≤ p + fuel)
    (hgo : p = start ∨ ¬ stop p) (hs : tracks p s)
    (hbefore : ∀ i, start < i → i < p + 1 → ¬ stop i) :
    ∃ least s', stepUntil step done fuel s = some s' ∧ tracks least s' ∧
      least ≤ last ∧ IsLeast {i | start < i ∧ stop i} least := by
  induction fuel generalizing p s with
  | zero => omega
  | succ fuel ih =>
    obtain ⟨hs', hdone⟩ := hstep p s hp hpl hgo hs
    simp only [stepUntil]
    by_cases hstop : stop (p + 1)
    · rw [if_pos (hdone.mpr hstop)]
      refine ⟨p + 1, step s, rfl, hs', hpl, ⟨by omega, hstop⟩, ?_⟩
      rintro i ⟨hi, hstopi⟩
      by_contra hlt
      exact hbefore i hi (by omega) hstopi
    · rw [if_neg (fun h => hstop (hdone.mp h))]
      have hne : p + 1 ≠ last := fun h => hstop (h ▸ hlast)
      refine ih (p + 1) (step s) (by omega) (by omega) (by omega) (.inr hstop) hs' ?_
      intro i hi hle
      rcases lt_or_ge i (p + 1) with hlt | hge
      · exact hbefore i hi hlt
      · have heq : i = p + 1 := by omega
        exact heq ▸ hstop

end Search

end ReciprocalDivision
