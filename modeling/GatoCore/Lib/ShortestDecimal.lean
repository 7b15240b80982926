import Mathlib.Data.Nat.Digits.Lemmas
import Mathlib.Data.List.TakeWhile
import Mathlib.Data.Nat.Dist
import Mathlib.Data.Prod.Lex
import GatoCore.Lib.Binary64

/-!
# The decimal a double is written as

A double is written with as few significant digits as tell it from every other double, and among
these as close to it as can be. `shortest` looks for that number from few digits to many; `Shortest`
says what it is.
-/

namespace GatoCore.Lib.Binary64

/-- The digits of a number without the zeros at its end. -/
def significant (n : ℕ) : ℕ := ((Nat.digits 10 n).dropWhile (· = 0)).length

/-- Of the two multiples of `10 ^ e` next to `d`, the closer one that has `d` as nearest double. -/
def pick (d e : ℕ) : Option ℕ :=
  let low := d / 10 ^ e * 10 ^ e
  let high := (d / 10 ^ e + 1) * 10 ^ e
  if nearest low = d ∧ ¬ (nearest high = d ∧ high - d < d - low) then some low
  else if nearest high = d then some high
  else none

/-- The search with at most `e` zeros at the end. -/
def search (d : ℕ) : ℕ → ℕ
  | 0 => d
  | e + 1 => (pick d e).getD (search d e)

def shortest (d : ℕ) : ℕ := search d (Nat.digits 10 d).length

/-- `v` is what `d` is written as. -/
structure Shortest (d v : ℕ) : Prop where
  rounds : nearest v = d
  least : ∀ w, nearest w = d → significant v ≤ significant w
  closest : ∀ w, nearest w = d → significant w = significant v → Nat.dist v d ≤ Nat.dist w d

/-- `String(d)`; an exponent is written from `10 ^ 21` on. -/
def numberText (d : ℕ) : List Char :=
  let digits := Nat.toDigits 10 (shortest d)
  let mantissa := (digits.reverse.dropWhile (· = '0')).reverse
  if d = infinity then "Infinity".toList
  else if shortest d < 10 ^ 21 then digits
  else
    mantissa.take 1 ++ (if mantissa.length = 1 then [] else '.' :: mantissa.drop 1) ++ ['e', '+'] ++
      Nat.toDigits 10 (digits.length - 1)

/-! ## Significant digits -/

theorem significant_le_iff {n k : ℕ} :
    significant n ≤ k ↔ ∃ s e, s < 10 ^ k ∧ n = s * 10 ^ e := by
  constructor
  · intro h
    set zeros := (Nat.digits 10 n).takeWhile (· = 0)
    set rest := (Nat.digits 10 n).dropWhile (· = 0) with hrest
    have hzeros : zeros = List.replicate zeros.length 0 := by
      refine List.eq_replicate_iff.mpr ⟨rfl, fun c hc => ?_⟩
      exact of_decide_eq_true (List.mem_takeWhile_imp (p := fun a => decide (a = 0)) hc)
    have hlt : Nat.ofDigits 10 rest < 10 ^ rest.length := by
      refine Nat.ofDigits_lt_base_pow_length (by decide) fun c hc => ?_
      exact Nat.digits_lt_base (by decide) ((List.dropWhile_sublist _).subset hc)
    refine ⟨Nat.ofDigits 10 rest, zeros.length, hlt.trans_le (Nat.pow_le_pow_right (by decide) h),
      ?_⟩
    calc n = Nat.ofDigits 10 (zeros ++ rest) := by
          rw [List.takeWhile_append_dropWhile, Nat.ofDigits_digits]
      _ = Nat.ofDigits 10 rest * 10 ^ zeros.length := by
          rw [Nat.ofDigits_append, hzeros, Nat.ofDigits_replicate_zero, List.length_replicate,
            Nat.zero_add, Nat.mul_comm]
  · rintro ⟨s, e, hs, rfl⟩
    rcases Nat.eq_zero_or_pos s with rfl | hpos
    · simp [significant]
    · rw [significant, Nat.mul_comm, Nat.digits_base_pow_mul (by decide) hpos]
      rw [List.dropWhile_append_of_pos (by simp)]
      refine le_trans (List.dropWhile_sublist _).length_le ?_
      exact (Nat.digits_length_le_iff (by decide) s).mpr hs

/-- At most `10 ^ k` of a power of ten take at most `k` digits. -/
theorem significant_le {a k : ℕ} (e : ℕ) (hk : 0 < k) (h : a ≤ 10 ^ k) :
    significant (a * 10 ^ e) ≤ k := by
  refine significant_le_iff.mpr ?_
  rcases Nat.lt_or_eq_of_le h with hlt | rfl
  · exact ⟨a, e, hlt, rfl⟩
  · refine ⟨1, k + e, Nat.one_lt_pow hk.ne' (by decide), ?_⟩
    rw [Nat.one_mul, Nat.pow_add]

/-! ## What the shortest decimal satisfies -/

section Shortest

variable {d v : ℕ}

/-- There is none between it and the double with as few digits. -/
theorem Shortest.eq_of_between (h : Shortest d v) (hd : nearest d = d) {w : ℕ}
    (hw : significant w ≤ significant v) (hbetween : (v ≤ w ∧ w ≤ d) ∨ (d ≤ w ∧ w ≤ v)) :
    w = v := by
  have hnear : nearest w = d := by
    rcases hbetween with ⟨hvw, hwd⟩ | ⟨hdw, hwv⟩
    · exact nearest_between h.rounds hd hvw hwd
    · exact nearest_between hd h.rounds hdw hwv
  have hclosest := h.closest w hnear (le_antisymm hw (h.least w hnear))
  rw [Nat.dist, Nat.dist] at hclosest
  omega

theorem exists_shortest (hd : nearest d = d) : ∃ v, Shortest d v := by
  obtain ⟨v, hv, hmin⟩ := WellFounded.has_min
    (InvImage.wf (fun w => toLex (significant w, Nat.dist w d)) wellFounded_lt)
    {w | nearest w = d} ⟨d, hd⟩
  refine ⟨v, hv, fun w hw => ?_, fun w hw heq => ?_⟩
  · by_contra hlt
    exact hmin w hw (Prod.Lex.toLex_lt_toLex.mpr (.inl (Nat.lt_of_not_le hlt)))
  · by_contra hlt
    exact hmin w hw (Prod.Lex.toLex_lt_toLex.mpr (.inr ⟨heq, Nat.lt_of_not_le hlt⟩))

theorem Shortest.significant_pos (h : Shortest d v) (hpos : 0 < d) : 0 < significant v := by
  rw [Nat.pos_iff_ne_zero]
  intro hzero
  obtain ⟨s, e, hs, rfl⟩ := significant_le_iff.mp hzero.le
  obtain rfl : s = 0 := Nat.lt_one_iff.mp hs
  have hrounds := h.rounds
  rw [Nat.zero_mul, nearest_of_lt (by decide)] at hrounds
  omega

/-- `v` as a multiple of a power of ten with at most as many digits as `d`. -/
structure Shortest.Found (d v e s : ℕ) : Prop where
  lt : e < (Nat.digits 10 d).length
  eq : v = s * 10 ^ e
  le : s ≤ 10 ^ significant v
  digits : (Nat.digits 10 d).length ≤ significant v + e

theorem pow_le_of_digits (hpos : 0 < d) : 10 ^ ((Nat.digits 10 d).length - 1) ≤ d := by
  have hle := Nat.base_pow_length_digits_le 10 d (by decide) hpos.ne'
  have hlen : 0 < (Nat.digits 10 d).length :=
    List.length_pos_iff.mpr (Nat.digits_ne_nil_iff_ne_zero.mpr hpos.ne')
  rw [← Nat.succ_pred_eq_of_pos hlen, Nat.pow_succ] at hle
  rw [Nat.sub_one]
  omega

theorem Shortest.found (h : Shortest d v) (hd : nearest d = d) (hpos : 0 < d) :
    ∃ e s, Shortest.Found d v e s := by
  set n := (Nat.digits 10 d).length with hn
  have hlt : d < 10 ^ n := Nat.lt_base_pow_length_digits (by decide)
  have hle : 10 ^ (n - 1) ≤ d := pow_le_of_digits hpos
  have hk := h.significant_pos hpos
  obtain ⟨s, e, hs, hv⟩ := significant_le_iff.mp (Nat.le_refl (significant v))
  have hvlt : v < 10 ^ (significant v + e) := by
    rw [hv, Nat.pow_add]
    exact Nat.mul_lt_mul_of_pos_right (hv ▸ hs) (Nat.pow_pos (by decide))
  have hone : ∀ m, significant (10 ^ m) ≤ significant v := fun m => by
    have hfits := significant_le m Nat.one_pos (a := 1) (by decide)
    rw [Nat.one_mul] at hfits
    exact hfits.trans hk
  have hdigits : n ≤ significant v + e := by
    by_contra hshort
    have hpow : 10 ^ (significant v + e) ≤ 10 ^ (n - 1) :=
      Nat.pow_le_pow_right (by decide) (by omega)
    have heq := h.eq_of_between hd (hone (n - 1)) (.inl ⟨by omega, hle⟩)
    omega
  by_cases he : e < n
  · exact ⟨e, s, he, hv, hs.le, hdigits⟩
  · -- the next power of ten, found as ten times the one before
    have hspos : 0 < s := by
      rw [Nat.pos_iff_ne_zero]
      rintro rfl
      rw [Nat.zero_mul] at hv
      subst hv
      exact absurd hk (by decide)
    have hge : 10 ^ n ≤ v := by
      rw [hv]
      exact (Nat.pow_le_pow_right (by decide) (Nat.le_of_not_lt he)).trans
        (Nat.le_mul_of_pos_left _ hspos)
    have heq := h.eq_of_between hd (hone n) (.inr ⟨hlt.le, hge⟩)
    have hn1 : 0 < n := by
      rw [hn]
      exact List.length_pos_iff.mpr (Nat.digits_ne_nil_iff_ne_zero.mpr hpos.ne')
    refine ⟨n - 1, 10, by omega, ?_, ?_, by omega⟩
    · rw [← heq, Nat.mul_comm, ← Nat.pow_succ, Nat.succ_eq_add_one, Nat.sub_add_cancel hn1]
    · exact (Nat.pow_le_pow_right (by decide) hk : 10 ^ 1 ≤ 10 ^ significant v)

/-! ## The search finds it -/

variable {e s : ℕ}

/-- The two multiples next to the double, one of which is the number looked for. -/
theorem Shortest.Found.neighbours (hf : Shortest.Found d v e s) (h : Shortest d v)
    (hd : nearest d = d) (hpos : 0 < d) :
    (v ≤ d ∧ d / 10 ^ e = s ∧ s < 10 ^ significant v) ∨ (d < v ∧ d / 10 ^ e + 1 = s) := by
  have hten : 0 < 10 ^ e := Nat.pow_pos (by decide)
  have hk := h.significant_pos hpos
  have hv := hf.eq
  rcases Nat.lt_or_ge d v with hup | hdown
  · refine .inr ⟨hup, ?_⟩
    have hspos : 0 < s := by
      rw [Nat.pos_iff_ne_zero]
      rintro rfl
      rw [Nat.zero_mul] at hv
      omega
    obtain ⟨a, rfl⟩ := Nat.exists_eq_add_one_of_ne_zero hspos.ne'
    congr 1
    refine Nat.div_eq_of_lt_le ?_ (hv ▸ hup)
    -- otherwise the multiple below `v` is between `d` and `v`
    by_contra hlt
    have heq := h.eq_of_between hd (significant_le e hk ((Nat.le_succ a).trans hf.le))
      (.inr ⟨(Nat.lt_of_not_le hlt).le, hv ▸ Nat.mul_le_mul_right _ (Nat.le_succ a)⟩)
    rw [hv, Nat.add_mul] at heq
    omega
  · have hslt : s < 10 ^ significant v := by
      by_contra hge
      have hbig : 10 ^ (significant v + e) ≤ s * 10 ^ e := by
        rw [Nat.pow_add]
        exact Nat.mul_le_mul_right _ (Nat.le_of_not_lt hge)
      have hdlt : d < 10 ^ (Nat.digits 10 d).length := Nat.lt_base_pow_length_digits (by decide)
      have hpow : 10 ^ (Nat.digits 10 d).length ≤ 10 ^ (significant v + e) :=
        Nat.pow_le_pow_right (by decide) hf.digits
      omega
    refine .inl ⟨hdown, ?_, hslt⟩
    refine Nat.div_eq_of_lt_le (hv ▸ hdown) ?_
    by_contra hlt
    have heq := h.eq_of_between hd (significant_le (a := s + 1) e hk hslt)
      (.inl ⟨hv ▸ Nat.mul_le_mul_right _ (Nat.le_succ s), Nat.le_of_not_lt hlt⟩)
    rw [hv, Nat.add_mul] at heq
    omega

/-- Where the number looked for is a neighbour, it is picked. -/
theorem Shortest.Found.pick (hf : Shortest.Found d v e s) (h : Shortest d v) (hd : nearest d = d)
    (hpos : 0 < d) (hinf : d < infinity) : pick d e = some v := by
  have hk := h.significant_pos hpos
  have hv := hf.eq
  rcases hf.neighbours h hd hpos with ⟨hdown, hdiv, hslt⟩ | ⟨hup, hdiv⟩
  · have hlow : d / 10 ^ e * 10 ^ e = v := by rw [hdiv, hv]
    have hhigh : significant ((d / 10 ^ e + 1) * 10 ^ e) ≤ significant v :=
      significant_le e hk (hdiv.symm ▸ hslt)
    rw [Binary64.pick]
    refine if_pos ⟨hlow ▸ h.rounds, ?_⟩ |>.trans (congrArg some hlow)
    rintro ⟨hnear, hcloser⟩
    have hclosest := h.closest _ hnear (le_antisymm hhigh (h.least _ hnear))
    have hlt : d < (d / 10 ^ e + 1) * 10 ^ e :=
      (Nat.div_lt_iff_lt_mul (Nat.pow_pos (by decide))).mp (Nat.lt_succ_self _)
    rw [hlow] at hcloser
    rw [Nat.dist, Nat.dist] at hclosest
    omega
  · have hhigh : (d / 10 ^ e + 1) * 10 ^ e = v := by rw [hdiv, hv]
    have hlow : significant (d / 10 ^ e * 10 ^ e) ≤ significant v :=
      significant_le e hk ((Nat.le_succ _).trans (hdiv.trans_le hf.le))
    rw [Binary64.pick]
    refine (if_neg ?_).trans ((if_pos (hhigh ▸ h.rounds)).trans (congrArg some hhigh))
    rintro ⟨hnear, hfarther⟩
    have hclosest := h.closest _ hnear (le_antisymm hlow (h.least _ hnear))
    have hle : d / 10 ^ e * 10 ^ e ≤ d := Nat.div_mul_le_self d _
    -- it could only be as close, which the half-way point rules out
    have hsame : v - d = d - d / 10 ^ e * 10 ^ e := by
      rw [hhigh] at hfarther
      rw [Nat.dist, Nat.dist] at hclosest
      have hnot : ¬ (v - d < d - d / 10 ^ e * 10 ^ e) := fun hlt => hfarther ⟨h.rounds, hlt⟩
      omega
    refine nearest_ne_midpoint ?_ hinf hnear
    have hsum : (2 * (d / 10 ^ e) + 1) * 10 ^ e = d / 10 ^ e * 10 ^ e + (d / 10 ^ e + 1) *
        10 ^ e := by
      ring
    rw [hsum, hhigh]
    omega

/-- With more zeros at the end there is none. -/
theorem Shortest.Found.pick_none (hf : Shortest.Found d v e s) (h : Shortest d v) {m : ℕ}
    (hem : e < m) (hm : m < (Nat.digits 10 d).length) : Binary64.pick d m = none := by
  have hdlt : d < 10 ^ (Nat.digits 10 d).length := Nat.lt_base_pow_length_digits (by decide)
  have hdiv : d / 10 ^ m < 10 ^ ((Nat.digits 10 d).length - m) := by
    refine Nat.div_lt_of_lt_mul ?_
    rwa [← Nat.pow_add, Nat.add_sub_cancel' hm.le]
  have hfew : ∀ a, a ≤ 10 ^ ((Nat.digits 10 d).length - m) → nearest (a * 10 ^ m) ≠ d := by
    intro a ha hnear
    have hleast := h.least _ hnear
    have hfits := significant_le m (by omega) ha
    have hdigits := hf.digits
    omega
  rw [Binary64.pick, if_neg fun hlow => hfew _ hdiv.le hlow.1, if_neg (hfew _ hdiv)]

theorem Shortest.Found.search (hf : Shortest.Found d v e s) (h : Shortest d v)
    (hd : nearest d = d) (hpos : 0 < d) (hinf : d < infinity) :
    ∀ m, e < m → m ≤ (Nat.digits 10 d).length → search d m = v := by
  intro m
  induction m with
  | zero => exact fun hem => absurd hem (Nat.not_lt_zero e)
  | succ m ih =>
      intro hem hm
      rw [Binary64.search]
      rcases Nat.lt_or_eq_of_le (Nat.le_of_lt_succ hem) with hlt | rfl
      · rw [hf.pick_none h hlt hm]
        exact ih hlt (Nat.le_of_succ_le hm)
      · rw [hf.pick h hd hpos hinf]
        rfl

theorem shortest_eq_iff (hd : nearest d = d) (hinf : d < infinity) :
    shortest d = v ↔ Shortest d v := by
  have hfinds : ∀ {w}, Shortest d w → shortest d = w := by
    intro w h
    rcases Nat.eq_zero_or_pos d with rfl | hpos
    · -- only zero rounds to zero
      by_contra hne
      have hone : 1 ≤ w := Nat.pos_iff_ne_zero.mpr fun hw => hne hw.symm
      have hmono := nearest_mono hone
      rw [h.rounds, nearest_of_lt (by decide)] at hmono
      omega
    · obtain ⟨e, s, hf⟩ := h.found hd hpos
      exact hf.search h hd hpos hinf _ hf.lt (Nat.le_refl _)
  constructor
  · rintro rfl
    obtain ⟨w, hw⟩ := exists_shortest hd
    exact (hfinds hw).symm ▸ hw
  · exact hfinds

end Shortest

/-- Below `2 ^ 53` every natural number is written as itself. -/
theorem shortest_of_lt {n : ℕ} (h : n < 2 ^ 53) : Shortest n n := by
  refine ⟨nearest_of_lt h, fun w hw => ?_, fun w hw _ => ?_⟩
  all_goals
    obtain rfl : w = n := by
      rcases Nat.lt_or_ge w (2 ^ 53) with hlt | hge
      · rw [← hw, nearest_of_lt hlt]
      · have hmono := nearest_mono hge
        rw [hw, nearest_of_dvd (dvd_pow_two 53)] at hmono
        · omega
        · obtain ⟨s, hs, hinf⟩ := infinity_eq_pow
          rw [hinf]
          exact Nat.pow_le_pow_right (by decide) (by omega)
    exact Nat.le_refl _

end GatoCore.Lib.Binary64
