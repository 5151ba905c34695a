import CurveScript.Number.Decimal
import CurveScript.Proofs.Boundary
import CurveScript.Proofs.Grammar
import Mathlib.Data.Nat.Digits.Lemmas

/-! # Digit strings and their values

The value of a digit string is the number that the digits denote in positional notation:
`Digits.value_eq_positional`. From this follows what is to be known of digit strings:

* the value of a joined string (`Digits.positional_append`);
* that two strings have one value only if they differ in leading zeros alone
  (`Digits.value_eq_iff`);
* that the digits written for a number have the number as their value (`Digits.value_toString`). -/

namespace CurveScript

namespace Byte

/-- The digit zero. -/
abbrev zero : Byte := 0x30

theorem digitValue_lt {b : Byte} (digit : b.isDigit = true) : b.digitValue < 10 := by
  have checked := imp_of_all (p := isDigit) (q := fun b => b.digitValue < 10)
    (by decide +kernel) digit
  simpa using checked

/-- A digit is determined by its value. -/
theorem eq_of_digitValue {b : Byte} (digit : b.isDigit = true) :
    b = UInt8.ofNat (0x30 + b.digitValue) := by
  have checked := imp_of_all (p := isDigit) (q := fun b => b == UInt8.ofNat (0x30 + b.digitValue))
    (by decide +kernel) digit
  simpa using checked

end Byte

namespace Digits

variable {u v w : List Byte}

/-! ## Positional notation -/

/-- The number that digits denote, each of them counting ten times as much as the one behind it. -/
def positional (w : List Byte) : Nat :=
  Nat.ofDigits 10 (w.reverse.map Byte.digitValue)

theorem value_concat (w : List Byte) (b : Byte) : value (w ++ [b]) = 10 * value w + b.digitValue := by
  simp [value]

theorem value_eq_positional (w : List Byte) : value w = positional w := by
  induction w using List.reverseRecOn with
  | nil => rfl
  | append_singleton w b inductionHypothesis =>
    rw [value_concat, inductionHypothesis, positional, positional, List.reverse_append,
      List.reverse_singleton, List.singleton_append, List.map_cons, Nat.ofDigits_cons, Nat.add_comm]

theorem positional_append (u v : List Byte) :
    positional (u ++ v) = positional u * 10 ^ v.length + positional v := by
  unfold positional
  rw [List.reverse_append, List.map_append, Nat.ofDigits_append, List.length_map,
    List.length_reverse]
  ring

/-! ## Leading zeros -/

/-- Two strings that differ in nothing but leading zeros. -/
def SameButZeros (u v : List Byte) : Prop :=
  ∃ i j core, u = List.replicate i Byte.zero ++ core ∧ v = List.replicate j Byte.zero ++ core

theorem value_zeros (n : Nat) (w : List Byte) : value (List.replicate n Byte.zero ++ w) = value w := by
  have nothing : positional (List.replicate n Byte.zero) = 0 := by
    rw [positional, List.reverse_replicate, List.map_replicate]
    exact Nat.ofDigits_replicate_zero
  rw [value_eq_positional, value_eq_positional, positional_append, nothing, Nat.zero_mul,
    Nat.zero_add]

/-- Every string is a run of zeros and a string that does not start with a zero. -/
theorem zeros_split (w : List Byte) :
    ∃ n core, w = List.replicate n Byte.zero ++ core ∧ core.head? ≠ some Byte.zero := by
  obtain ⟨zeros, core, rfl, _, all, stops⟩ := Byte.run_split (· == Byte.zero) w
  refine ⟨zeros.length, core, ?_, ?_⟩
  · have same : zeros = List.replicate zeros.length Byte.zero :=
      List.eq_replicate_iff.mpr ⟨rfl, fun b member => eq_of_beq (all b member)⟩
    rw [← same]
  · intro first
    cases core with
    | nil => cases first
    | cons b core =>
      cases first
      cases Byte.head_of_run_eq_zero stops

/-- A string that does not start with a zero can be read off its value. -/
theorem digits_value (digits : ∀ b ∈ w, b.isDigit = true) (proper : w.head? ≠ some Byte.zero) :
    Nat.digits 10 (value w) = w.reverse.map Byte.digitValue := by
  rw [value_eq_positional]
  apply Nat.digits_ofDigits 10 (by omega)
  · intro n member
    obtain ⟨b, inside, rfl⟩ := List.mem_map.mp member
    exact Byte.digitValue_lt (digits b (List.mem_reverse.mp inside))
  · intro nonempty
    cases w with
    | nil => exact absurd rfl nonempty
    | cons b w =>
      intro last
      simp only [List.reverse_cons, List.map_append, List.map_cons, List.map_nil,
        List.getLast_append_singleton] at last
      have isZero := Byte.eq_of_digitValue (digits b List.mem_cons_self)
      rw [last] at isZero
      exact proper (congrArg some isZero)

theorem map_digitValue_injective (digits : ∀ b ∈ u, b.isDigit = true)
    (digits' : ∀ b ∈ v, b.isDigit = true) (same : u.map Byte.digitValue = v.map Byte.digitValue) :
    u = v := by
  have back : ∀ w : List Byte, (∀ b ∈ w, b.isDigit = true) →
      (w.map Byte.digitValue).map (fun n => UInt8.ofNat (0x30 + n)) = w := by
    intro w all
    rw [List.map_map]
    exact (List.map_congr_left fun b member => (Byte.eq_of_digitValue (all b member)).symm).trans
      (List.map_id w)
  rw [← back u digits, same, back v digits']

theorem value_eq_iff (digits : ∀ b ∈ u, b.isDigit = true) (digits' : ∀ b ∈ v, b.isDigit = true) :
    value u = value v ↔ SameButZeros u v := by
  constructor
  · intro same
    obtain ⟨i, core, rfl, proper⟩ := zeros_split u
    obtain ⟨j, core', rfl, proper'⟩ := zeros_split v
    have all : ∀ b ∈ core, b.isDigit = true := fun b member => digits b (by simp [member])
    have all' : ∀ b ∈ core', b.isDigit = true := fun b member => digits' b (by simp [member])
    rw [value_zeros, value_zeros] at same
    have spelled : core.reverse.map Byte.digitValue = core'.reverse.map Byte.digitValue := by
      rw [← digits_value all proper, ← digits_value all' proper', same]
    rw [List.map_reverse, List.map_reverse, List.reverse_inj] at spelled
    obtain rfl := map_digitValue_injective all all' spelled
    exact ⟨i, j, core, rfl, rfl⟩
  · rintro ⟨i, j, core, rfl, rfl⟩
    rw [value_zeros, value_zeros]

/-! ## Written numbers -/

/-- A number is written with one digit, or with its last digit behind those of its tenth. -/
theorem bytes_toString (n : Nat) : Text.bytes (toString n) =
    if n < 10 then [UInt8.ofNat (0x30 + n)]
    else Text.bytes (toString (n / 10)) ++ [UInt8.ofNat (0x30 + n % 10)] := by
  have digit : ∀ d < 10, String.utf8EncodeChar (Nat.digitChar d) = [UInt8.ofNat (0x30 + d)] := by
    decide +kernel
  rw [Nat.toString_eq_repr, Nat.toString_eq_repr, Nat.repr_eq_ofList_toDigits,
    Nat.repr_eq_ofList_toDigits, Text.bytes_ofList, Text.bytes_ofList, Nat.toDigits_eq_if (by omega)]
  split
  · next small => simp [digit n small]
  · next large => simp [digit (n % 10) (Nat.mod_lt _ (by omega))]

theorem toString_mem (n : Nat) : Text.bytes (toString n) ∈ Grammar.many1 Byte.isDigit := by
  have digit : ∀ d < 10, Byte.isDigit (UInt8.ofNat (0x30 + d)) = true := by decide +kernel
  induction n using Nat.strongRecOn with
  | ind n inductionHypothesis =>
    rw [bytes_toString, Grammar.mem_many1_iff]
    split
    · next small => simpa using digit n small
    · next large =>
      obtain ⟨_, all⟩ := Grammar.mem_many1_iff.mp (inductionHypothesis (n / 10) (by omega))
      refine ⟨by simp, fun b member => ?_⟩
      rcases List.mem_append.mp member with member | member
      · exact all b member
      · rw [List.mem_singleton.mp member]
        exact digit (n % 10) (Nat.mod_lt _ (by omega))

theorem value_toString (n : Nat) : value (Text.bytes (toString n)) = n := by
  have digit : ∀ d < 10, Byte.digitValue (UInt8.ofNat (0x30 + d)) = d := by decide +kernel
  induction n using Nat.strongRecOn with
  | ind n inductionHypothesis =>
    rw [bytes_toString]
    split
    · next small =>
      change 10 * 0 + Byte.digitValue (UInt8.ofNat (0x30 + n)) = n
      rw [digit n small, Nat.mul_zero, Nat.zero_add]
    · next large =>
      rw [value_concat, inductionHypothesis (n / 10) (by omega),
        digit (n % 10) (Nat.mod_lt _ (by omega))]
      exact Nat.div_add_mod n 10

theorem length_toString {n e : Nat} (small : n < 10 ^ e) (positive : 0 < e) :
    (Text.bytes (toString n)).length ≤ e := by
  induction e generalizing n with
  | zero => exact absurd positive (Nat.lt_irrefl 0)
  | succ e inductionHypothesis =>
    rw [bytes_toString]
    split
    · exact Nat.succ_le_succ (Nat.zero_le e)
    · next large =>
      have shorter : n / 10 < 10 ^ e := Nat.div_lt_of_lt_mul (by rwa [Nat.pow_succ'] at small)
      have proper : 0 < e := by
        by_contra none
        rw [Nat.eq_zero_of_not_pos none] at small
        exact large small
      rw [List.length_append, List.length_singleton]
      exact Nat.succ_le_succ (inductionHypothesis shorter proper)

end Digits

end CurveScript
