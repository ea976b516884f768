import TunnelConf.Proofs.Address.Styles
import TunnelConf.Rule.Basic

/-!
# Accepted subnets

The address of a subnet is read in the loose style and an address by itself in the strict one. Main statement:
`Rule.isAddressOrSubnet_exact`, which texts with a slash are accepted, and which of them have an address that is
accepted by itself.
-/

namespace TunnelConf

open Text Address

namespace Rule

variable {a p t : Text}

theorem slash_not_mem_form {s : Style} {x : Address} (h : IsForm s t x) : '/' ∉ t := by
  intro hc
  rcases h.char _ hc with hc | hc
  · exact absurd hc (by decide)
  · exact absurd hc (by decide)

theorem slash_not_mem_length {x : Address} {n : Nat} (h : Subnet.IsLength x t n) : '/' ∉ t := by
  intro hc
  cases x with
  | v4 octets => exact absurd (h.digits _ hc) (by decide)
  | v6 groups => exact absurd (h.digits _ hc) (by decide)

theorem isAddressOrSubnet_iff : isAddressOrSubnet t = true ↔
    (∃ x p a n, t = x ++ '/' :: p ∧ IsForm loose x a ∧ Subnet.IsLength a p n) ∨ ∃ a, IsForm strict t a := by
  rw [isAddressOrSubnet, Bool.or_eq_true, Option.isSome_iff_exists, Option.isSome_iff_exists]
  simp only [Address.ofText?_eq_some_iff]
  refine or_congr_left ⟨?_, ?_⟩
  · rintro ⟨⟨a, n⟩, h⟩
    obtain ⟨x, p, ht, hx, hp⟩ := Subnet.ofText?_eq_some_iff.1 h
    exact ⟨x, p, a, n, ht, hx, hp⟩
  · rintro ⟨x, p, a, n, ht, hx, hp⟩
    exact ⟨⟨a, n⟩, Subnet.ofText?_eq_some_iff.2 ⟨x, p, ht, hx, hp⟩⟩

theorem isAddressOrSubnet_slash_iff : isAddressOrSubnet (a ++ '/' :: p) = true ↔
    ∃ x n, IsForm loose a x ∧ Subnet.IsLength x p n := by
  rw [isAddressOrSubnet_iff]
  constructor
  · rintro (⟨b, q, x, n, heq, hb, hq⟩ | ⟨x, h⟩)
    · obtain ⟨rfl, -, rfl⟩ :=
        (List.append_cons_inj_of_notMem (slash_not_mem_form hb) (slash_not_mem_length hq)).1 heq.symm
      exact ⟨x, n, hb, hq⟩
    · exact absurd (by simp) (slash_not_mem_form h)
  · rintro ⟨x, n, ha, hp⟩
    exact .inl ⟨a, p, x, n, rfl, ha, hp⟩

/-- Without a slash it is addresses that are accepted. With one, an address in the loose style and a number of leading
bits of at most two or three digits are. Such an address is accepted by itself unless an octet of it has leading zeros
or two colons stand between eight groups, and behind one that is accepted by itself the number is all that counts. -/
theorem isAddressOrSubnet_exact :
    (∀ t, '/' ∉ t → (isAddressOrSubnet t = true ↔ ∃ x, Address.ofText? t = some x)) ∧
    (∀ a p, isAddressOrSubnet (a ++ '/' :: p) = true ↔ ∃ x n, IsForm loose a x ∧ Subnet.IsLength x p n) ∧
    (∀ a x, Address.ofText? a = some x ↔ IsForm loose a x ∧ ¬ HasLeadingZero a ∧ ¬ HasEmptyRun a) ∧
    ∀ a x p, Address.ofText? a = some x →
      (isAddressOrSubnet (a ++ '/' :: p) = true ↔ ∃ n, Subnet.IsLength x p n) := by
  refine ⟨fun t ht => ?_, fun a p => isAddressOrSubnet_slash_iff, fun a x => ?_, fun a x p h => ?_⟩
  · simp only [isAddressOrSubnet_iff, Address.ofText?_eq_some_iff]
    refine or_iff_right ?_
    rintro ⟨x, p, _, _, rfl, -, -⟩
    exact ht (by simp)
  · rw [Address.ofText?_eq_some_iff, IsForm.strict_iff]
  · have hloose := (Address.ofText?_eq_some_iff.1 h).relax loose
    rw [isAddressOrSubnet_slash_iff]
    constructor
    · rintro ⟨y, n, hy, hp⟩
      obtain rfl := hloose.unique hy
      exact ⟨n, hp⟩
    · rintro ⟨n, hp⟩
      exact ⟨x, n, hloose, hp⟩

/-- What is accepted in front of a slash may be rejected by itself, and a number may have too many digits. -/
theorem isAddressOrSubnet_differs :
    (isAddressOrSubnet "010.0.0.1/24".toList = true ∧ Address.ofText? "010.0.0.1".toList = none) ∧
    (isAddressOrSubnet "1:2:3:4::5:6:7:8/64".toList = true ∧ Address.ofText? "1:2:3:4::5:6:7:8".toList = none) ∧
    (isAddressOrSubnet "10.0.0.1/008".toList = false ∧ Address.ofText? "10.0.0.1".toList = some (.v4 [10, 0, 0, 1]) ∧
      natural? "008".toList = some 8) := by
  decide +kernel

end Rule

end TunnelConf
