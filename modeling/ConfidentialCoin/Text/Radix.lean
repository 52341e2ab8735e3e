/-!
# Changing the base of a digit string

A digit string, most significant digit first, stands for a number and a count of leading zeros.
`convert` keeps both: it writes the number in another base without leading zeros and puts as many
zero digits in front as there were. Strings in two bases thereby correspond one to one.

* `ofDigits_digits` and `digits_ofDigits`: the digits of a number stand for it, and a string that
  does not begin with zero is the digits of its number.
* `convert_convert`: converting forth and back is the identity.
-/

namespace ConfidentialCoin.Radix

/-- The number of a digit string, least significant digit first. -/
def ofReverseDigits (base : Nat) : List Nat → Nat
  | [] => 0
  | d :: ds => d + base * ofReverseDigits base ds

/-- The digits of `n`, least significant first, the last one not zero. -/
def reverseDigits (base n : Nat) : List Nat :=
  if 1 < base ∧ 0 < n then n % base :: reverseDigits base (n / base) else []
termination_by n
decreasing_by rename_i h; exact Nat.div_lt_self h.2 h.1

/-- The number of a digit string. -/
def ofDigits (base : Nat) (ds : List Nat) : Nat := ofReverseDigits base ds.reverse

/-- The digits of `n`, the first one not zero. -/
def digits (base n : Nat) : List Nat := (reverseDigits base n).reverse

/-- The leading zeros of a digit string. -/
def leadingZeros : List Nat → Nat
  | 0 :: ds => leadingZeros ds + 1
  | _ => 0

/-- A digit string in base `source`, in base `target`. -/
def convert (source target : Nat) (ds : List Nat) : List Nat :=
  List.replicate (leadingZeros ds) 0 ++ digits target (ofDigits source ds)

/-! ### Digits and numbers -/

theorem ofReverseDigits_reverseDigits {base : Nat} (hb : 1 < base) (n : Nat) :
    ofReverseDigits base (reverseDigits base n) = n := by
  induction n using Nat.strongRecOn with
  | ind n ih =>
    unfold reverseDigits
    by_cases hn : 0 < n
    · rw [if_pos ⟨hb, hn⟩, ofReverseDigits, ih _ (Nat.div_lt_self hn hb), Nat.mod_add_div]
    · rw [if_neg (fun h => hn h.2), ofReverseDigits]
      omega

theorem ofReverseDigits_pos {base : Nat} (hb : 1 < base) {ds : List Nat} (hne : ds ≠ [])
    (hz : ds.getLast hne ≠ 0) : 0 < ofReverseDigits base ds := by
  induction ds with
  | nil => exact absurd rfl hne
  | cons d ds ih =>
    rw [ofReverseDigits]
    cases ds with
    | nil => simp only [List.getLast_singleton] at hz; omega
    | cons e ds =>
      have := Nat.mul_pos (show 0 < base by omega) (ih (by simp) (by simpa using hz))
      omega

/-- Digits that end with none that is zero are those of the number they stand for. -/
theorem reverseDigits_ofReverseDigits {base : Nat} (hb : 1 < base) {ds : List Nat}
    (hlt : ∀ d ∈ ds, d < base) (hz : ∀ h : ds ≠ [], ds.getLast h ≠ 0) :
    reverseDigits base (ofReverseDigits base ds) = ds := by
  induction ds with
  | nil => simp [ofReverseDigits, reverseDigits]
  | cons d ds ih =>
    have hd : d < base := hlt d List.mem_cons_self
    have hn := ofReverseDigits_pos hb (List.cons_ne_nil d ds) (hz _)
    have hmod : (d + base * ofReverseDigits base ds) % base = d := by
      rw [Nat.add_mul_mod_self_left, Nat.mod_eq_of_lt hd]
    have hdiv : (d + base * ofReverseDigits base ds) / base = ofReverseDigits base ds := by
      rw [Nat.add_mul_div_left _ _ (by omega), Nat.div_eq_of_lt hd, Nat.zero_add]
    rw [reverseDigits, if_pos ⟨hb, hn⟩, ofReverseDigits, hmod, hdiv]
    rw [ih (fun x hx => hlt x (List.mem_cons_of_mem _ hx))]
    intro h
    have := hz (List.cons_ne_nil d ds)
    rwa [List.getLast_cons h] at this

/-- The digits of a number stand for it. -/
theorem ofDigits_digits {base : Nat} (hb : 1 < base) (n : Nat) :
    ofDigits base (digits base n) = n := by
  rw [ofDigits, digits, List.reverse_reverse, ofReverseDigits_reverseDigits hb]

/-- A digit string that does not begin with zero is the digits of its number. -/
theorem digits_ofDigits {base : Nat} (hb : 1 < base) {ds : List Nat} (hlt : ∀ d ∈ ds, d < base)
    (hz : ∀ h : ds ≠ [], ds.head h ≠ 0) : digits base (ofDigits base ds) = ds := by
  rw [ofDigits, digits, reverseDigits_ofReverseDigits hb, List.reverse_reverse]
  · simpa using hlt
  · intro h
    rw [List.getLast_reverse]
    exact hz _

theorem lt_of_mem_reverseDigits {base : Nat} (hb : 1 < base) {n d : Nat}
    (h : d ∈ reverseDigits base n) : d < base := by
  induction n using Nat.strongRecOn with
  | ind n ih =>
    unfold reverseDigits at h
    by_cases hn : 0 < n
    · rw [if_pos ⟨hb, hn⟩] at h
      rcases List.mem_cons.1 h with rfl | h
      · exact Nat.mod_lt _ (by omega)
      · exact ih _ (Nat.div_lt_self hn hb) h
    · rw [if_neg (fun h => hn h.2)] at h
      cases h

theorem lt_of_mem_digits {base : Nat} (hb : 1 < base) {n d : Nat} (h : d ∈ digits base n) :
    d < base := lt_of_mem_reverseDigits hb (List.mem_reverse.1 h)

/-- The leading digit is not zero. -/
theorem getLast_reverseDigits {base : Nat} (hb : 1 < base) (n : Nat)
    (h : reverseDigits base n ≠ []) : (reverseDigits base n).getLast h ≠ 0 := by
  induction n using Nat.strongRecOn with
  | ind n ih =>
    by_cases hn : 0 < n
    · have hd : reverseDigits base n = n % base :: reverseDigits base (n / base) := by
        rw [reverseDigits, if_pos ⟨hb, hn⟩]
      by_cases hq : reverseDigits base (n / base) = []
      -- No digits come after this one, so the quotient is 0 and this digit is `n` itself.
      · simp only [hd, hq, List.getLast_singleton]
        have hzero := ofReverseDigits_reverseDigits hb (n / base)
        rw [hq, ofReverseDigits] at hzero
        have := Nat.mod_add_div n base
        rw [← hzero] at this
        omega
      · simp only [hd, List.getLast_cons hq]
        exact ih _ (Nat.div_lt_self hn hb) hq
    · exact absurd (by rw [reverseDigits, if_neg (fun h => hn h.2)]) h

/-- The digits of a number do not begin with zero. -/
theorem head_digits {base : Nat} (hb : 1 < base) (n : Nat) (h : digits base n ≠ []) :
    (digits base n).head h ≠ 0 := by
  have h' : reverseDigits base n ≠ [] := by simpa [digits] using h
  simp only [digits, List.head_reverse]
  exact getLast_reverseDigits hb n h'

/-! ### Leading zeros -/

/-- A digit string is its leading zeros and a string that does not begin with zero. -/
theorem exists_leadingZeros (ds : List Nat) :
    ∃ rest, ds = List.replicate (leadingZeros ds) 0 ++ rest ∧ ∀ h : rest ≠ [], rest.head h ≠ 0 := by
  fun_induction leadingZeros ds with
  | case1 ds ih =>
    obtain ⟨rest, hds, hrest⟩ := ih
    refine ⟨rest, ?_, hrest⟩
    rw [List.replicate_succ, List.cons_append, ← hds]
  | case2 ds hds =>
    refine ⟨ds, rfl, fun h hz => ?_⟩
    cases ds with
    | nil => exact h rfl
    | cons d ds => exact hds ds (by rw [← hz]; rfl)

/-- Zeros in front of a leading digit are counted. -/
theorem leadingZeros_replicate_append (n : Nat) {ds : List Nat} (h : ∀ h : ds ≠ [], ds.head h ≠ 0) :
    leadingZeros (List.replicate n 0 ++ ds) = n := by
  induction n with
  | zero =>
    cases ds with
    | nil => rfl
    | cons d ds =>
      have hd : d ≠ 0 := h (List.cons_ne_nil d ds)
      simp only [List.replicate_zero, List.nil_append]
      unfold leadingZeros
      split
      · next heq => cases heq; exact absurd rfl hd
      · rfl
  | succ n ih => rw [List.replicate_succ, List.cons_append, leadingZeros, ih]

/-- Zeros in front change no number. -/
theorem ofReverseDigits_append_replicate (base : Nat) (ds : List Nat) (n : Nat) :
    ofReverseDigits base (ds ++ List.replicate n 0) = ofReverseDigits base ds := by
  induction ds with
  | nil =>
    induction n with
    | zero => rfl
    | succ n ih =>
      simp only [List.nil_append, List.replicate_succ, ofReverseDigits] at ih ⊢
      rw [ih, Nat.mul_zero]
  | cons d ds ih => rw [List.cons_append, ofReverseDigits, ih, ofReverseDigits]

/-- Leading zeros do not change the number. -/
theorem ofDigits_replicate_append (base n : Nat) (ds : List Nat) :
    ofDigits base (List.replicate n 0 ++ ds) = ofDigits base ds := by
  rw [ofDigits, List.reverse_append, List.reverse_replicate, ofReverseDigits_append_replicate,
    ofDigits]

/-- Converting to another base and back is the identity on proper digit strings. -/
theorem convert_convert {a b : Nat} (ha : 1 < a) (hb : 1 < b) {ds : List Nat}
    (hlt : ∀ d ∈ ds, d < a) : convert b a (convert a b ds) = ds := by
  obtain ⟨rest, hds, hrest⟩ := exists_leadingZeros ds
  -- The conversion keeps the two things that determine a digit string.
  have hz : leadingZeros (convert a b ds) = leadingZeros ds :=
    leadingZeros_replicate_append _ (head_digits hb _)
  have hn : ofDigits b (convert a b ds) = ofDigits a ds := by
    rw [convert, ofDigits_replicate_append, ofDigits_digits hb]
  have hv : ofDigits a ds = ofDigits a rest := by
    rw [hds, ofDigits_replicate_append]
  have hr : digits a (ofDigits a rest) = rest := digits_ofDigits ha
    (fun d hd => hlt d (by rw [hds]; exact List.mem_append_right _ hd)) hrest
  rw [convert, hz, hn, hv, hr, ← hds]

theorem lt_of_mem_convert {a b : Nat} (hb : 1 < b) {ds : List Nat} {d : Nat}
    (h : d ∈ convert a b ds) : d < b := by
  rcases List.mem_append.1 h with h | h
  · rw [List.eq_of_mem_replicate h]
    omega
  · exact lt_of_mem_digits hb h

end ConfidentialCoin.Radix
