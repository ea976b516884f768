import TunnelConf.Proofs.Address.Forms
import TunnelConf.Rule.Basic

/-!
# Accepted endpoints

The number of colons tells what an endpoint is. Without a colon it is a host name, and addresses of four octets are
host names (`HostName.IsHost.of_isV4`). With one colon it is a host name and a port, and with more an address in groups
or a socket of one. Main statement: `Endpoint.accepted_by_colons`.
-/

namespace TunnelConf

open Text

/-! ### Host names -/

namespace HostName

variable {s : Address.Style} {l t x : Text} {labels : List Text} {octets : List Nat} {n : Nat}

structure IsLabel (l : Text) : Prop where
  size_pos : 1 ≤ size l
  size_le : size l ≤ 63
  chars : ∀ c ∈ l, isAlphanumeric c = true ∨ c = '-' ∨ c = '_'
  head : l.head? ≠ some '-'
  last : l.getLast? ≠ some '-'

/-- The parts of a host name. -/
structure AreLabels (labels : List Text) : Prop where
  ne_nil : labels ≠ []
  label : ∀ l ∈ labels, IsLabel l
  size_le : size (['.'].intercalate labels) ≤ 253

/-- Labels with dots between them and a final dot or none. -/
def IsHost (t : Text) : Prop :=
  ∃ labels, AreLabels labels ∧ (t = ['.'].intercalate labels ∨ t = ['.'].intercalate labels ++ ['.'])

theorem isLabel_iff : isLabel l = true ↔ IsLabel l := by
  simp only [isLabel, Bool.and_eq_true, Bool.not_eq_true', List.isEmpty_eq_false_iff, decide_eq_true_eq, bne_iff_ne,
    List.all_eq_true, Bool.or_eq_true, beq_iff_eq, or_assoc]
  constructor
  · rintro ⟨⟨⟨⟨hne, hsize⟩, hhead⟩, hlast⟩, hchars⟩
    exact ⟨size_pos_iff.2 hne, hsize, hchars, hhead, hlast⟩
  · rintro ⟨hpos, hsize, hchars, hhead, hlast⟩
    exact ⟨⟨⟨⟨size_pos_iff.1 hpos, hsize⟩, hhead⟩, hlast⟩, hchars⟩

theorem IsLabel.not_mem {c : Char} (h : IsLabel l) (hc : (isAlphanumeric c || c == '-' || c == '_') = false) :
    c ∉ l := by
  intro hmem
  have := h.chars c hmem
  simp only [Bool.or_eq_false_iff, beq_eq_false_iff_ne] at hc
  obtain ⟨⟨hc, hne⟩, hne'⟩ := hc
  rw [hc] at this
  rcases this with h | h | h
  · cases h
  · exact hne h
  · exact hne' h

namespace AreLabels

theorem splitWhere_intercalate (h : AreLabels labels) :
    splitWhere (· == '.') (['.'].intercalate labels) = labels := by
  rw [splitWhere_eq_splitOnP]
  exact List.splitOn_intercalate '.' (fun l hl => (h.label l hl).not_mem (by decide)) h.ne_nil

theorem nil_not_mem (h : AreLabels labels) : [] ∉ labels := fun hnil =>
  absurd (h.label [] hnil).size_pos (by decide)

theorem intercalate_ne_nil (h : AreLabels labels) : ['.'].intercalate labels ≠ [] := by
  intro hnil
  have hsplit := h.splitWhere_intercalate
  rw [hnil] at hsplit
  refine h.nil_not_mem ?_
  rw [← hsplit]
  exact List.mem_cons_self

theorem getLast?_ne (h : AreLabels labels) : (['.'].intercalate labels).getLast? ≠ some '.' := by
  intro hlast
  obtain ⟨a, ha⟩ := List.getLast?_eq_some_iff.1 hlast
  have hsplit := h.splitWhere_intercalate
  rw [ha, splitWhere_append_cons (p := (· == '.')) rfl] at hsplit
  refine h.nil_not_mem ?_
  rw [← hsplit]
  exact List.mem_append_right _ List.mem_cons_self

theorem dropFinalDot_eq (h : AreLabels labels)
    (ht : t = ['.'].intercalate labels ∨ t = ['.'].intercalate labels ++ ['.']) :
    dropFinalDot t = ['.'].intercalate labels := by
  rcases ht with rfl | rfl
  · exact if_neg h.getLast?_ne
  · rw [dropFinalDot, if_pos List.getLast?_concat, List.dropLast_concat]

end AreLabels

theorem dropFinalDot_cases (t : Text) : t = dropFinalDot t ∨ t = dropFinalDot t ++ ['.'] := by
  rw [dropFinalDot]
  split
  · next h =>
    obtain ⟨a, rfl⟩ := List.getLast?_eq_some_iff.1 h
    rw [List.dropLast_concat]
    exact .inr rfl
  · exact .inl rfl

theorem isValid_iff : isValid t = true ↔ IsHost t := by
  simp only [isValid, Bool.and_eq_true, Bool.not_eq_true', List.isEmpty_eq_false_iff, decide_eq_true_eq,
    List.all_eq_true, isLabel_iff]
  constructor
  · rintro ⟨⟨-, hsize⟩, hlabels⟩
    have hjoin : ['.'].intercalate (splitWhere (· == '.') (dropFinalDot t)) = dropFinalDot t := by
      rw [splitWhere_eq_splitOnP]
      exact List.intercalate_splitOn '.'
    refine ⟨_, ⟨splitWhere_ne_nil _ _, hlabels, by rwa [hjoin]⟩, ?_⟩
    rw [hjoin]
    exact dropFinalDot_cases t
  · rintro ⟨labels, h, ht⟩
    rw [h.dropFinalDot_eq ht, h.splitWhere_intercalate]
    exact ⟨⟨h.intercalate_ne_nil, h.size_le⟩, h.label⟩

theorem IsLabel.of_isOctet (h : Address.IsOctet s x n) : IsLabel x ∧ size x ≤ 3 := by
  have hsize : size x = x.length := size_eq_length fun c hc => utf8Size_of_isDigit (h.digits c hc)
  have hle := h.numeral.length_le
  have hhyphen : '-' ∉ x := fun hc => absurd (h.digits _ hc) (by decide)
  refine ⟨⟨size_pos_iff.2 h.numeral.ne_nil, by omega, fun c hc => .inl ?_, ?_, ?_⟩, by omega⟩
  · exact isAlphanumeric_of_isDigit (h.digits c hc)
  · exact fun hc => hhyphen (List.mem_of_head? hc)
  · exact fun hc => hhyphen (List.mem_of_getLast? hc)

theorem IsHost.of_isV4 (h : Address.IsV4 s x octets) : IsHost x := by
  obtain @⟨x, y, z, w, _, _, _, _, hx, hy, hz, hw⟩ := h
  obtain ⟨hx, hxsize⟩ := IsLabel.of_isOctet hx
  obtain ⟨hy, hysize⟩ := IsLabel.of_isOctet hy
  obtain ⟨hz, hzsize⟩ := IsLabel.of_isOctet hz
  obtain ⟨hw, hwsize⟩ := IsLabel.of_isOctet hw
  have hjoin : ['.'].intercalate [x, y, z, w] = x ++ '.' :: (y ++ '.' :: (z ++ '.' :: w)) := by
    simp only [List.intercalate_cons_cons, List.intercalate_singleton, List.append_assoc, List.singleton_append]
  have hpoint : ('.' : Char).utf8Size = 1 := rfl
  refine ⟨[x, y, z, w], ⟨List.cons_ne_nil _ _, ?_, ?_⟩, .inl hjoin.symm⟩
  · simp only [List.forall_mem_cons]
    exact ⟨hx, hy, hz, hw, nofun⟩
  · rw [hjoin]
    simp only [size_append, size_cons, hpoint]
    omega

theorem IsHost.colon_not_mem (h : IsHost t) : ':' ∉ t := by
  obtain ⟨labels, h, ht⟩ := h
  have hjoin : ':' ∉ ['.'].intercalate labels :=
    not_mem_intercalate (by decide) fun l hl => (h.label l hl).not_mem (by decide)
  rcases ht with rfl | rfl
  · exact hjoin
  · rw [List.mem_append, not_or]
    exact ⟨hjoin, by decide⟩

end HostName

namespace Endpoint

variable {v h p t : Text}

/-! ### Ports -/

/-- Decimal digits of a number below 65536; a plus may stand in front. -/
def IsPort (p : Text) : Prop := ∃ y n, (p = y ∨ p = '+' :: y) ∧ Socket.IsPort y n

theorem any_natural?_iff : (natural? t).any (· < 65536) = true ↔ ∃ n, Socket.IsPort t n := by
  have hdigits : (t.all isDigit = true) ↔ ∀ c ∈ t, isDigitIn 10 c = true := by
    simp only [List.all_eq_true, isDigitIn_ten]
  rw [natural?]
  constructor
  · intro h
    split at h
    · cases h
    · next hno =>
      simp only [Bool.or_eq_true, List.isEmpty_iff, Bool.not_eq_true', not_or, Bool.not_eq_false, hdigits] at hno
      exact ⟨_, hno.2, hno.1, Nat.le_refl _, rfl, of_decide_eq_true h⟩
  · rintro ⟨n, h⟩
    rw [if_neg, h.value]
    · exact decide_eq_true h.lt
    · simp only [Bool.or_eq_true, List.isEmpty_iff, Bool.not_eq_true', not_or, Bool.not_eq_false, hdigits]
      exact ⟨h.ne_nil, h.digits⟩

theorem plus_not_port {n : Nat} : ¬ Socket.IsPort ('+' :: t) n := fun h =>
  absurd (h.digits '+' List.mem_cons_self) (by decide)

theorem isPort_iff : isPort p = true ↔ IsPort p := by
  rw [isPort, unsigned?.eq_def]
  split
  · next p =>
    rw [any_natural?_iff]
    constructor
    · rintro ⟨n, h⟩
      exact ⟨p, n, .inr rfl, h⟩
    · rintro ⟨_, n, rfl | hy, h⟩
      · exact absurd h plus_not_port
      · obtain ⟨-, rfl⟩ := List.cons.inj hy
        exact ⟨n, h⟩
  · next hno =>
    rw [any_natural?_iff]
    constructor
    · rintro ⟨n, h⟩
      exact ⟨p, n, .inl rfl, h⟩
    · rintro ⟨y, n, rfl | rfl, h⟩
      · exact ⟨n, h⟩
      · exact absurd rfl (hno y)

theorem IsPort.colon_not_mem (h : IsPort p) : ':' ∉ p := by
  obtain ⟨y, n, rfl | rfl, hy⟩ := h
  · exact hy.colon_not_mem
  · exact List.not_mem_cons_of_ne_of_not_mem (by decide) hy.colon_not_mem

/-! ### Endpoints -/

theorem isValid_eq (v : Text) : isValid v =
    ((Socket.ofText? v).isSome || (Address.ofText? v).isSome ||
      match splitLast? ':' v with
      | none => HostName.isValid v
      | some (host, port) => !host.contains ':' && isPort port && HostName.isValid host) := by
  cases v with
  | nil => rfl
  | cons c v =>
    rw [isValid, List.isEmpty_cons, if_neg Bool.false_ne_true]
    split
    · next h => rw [h, Bool.true_or]
    · next h =>
      rw [Bool.eq_false_iff.2 h]
      exact (Bool.false_or _).symm

/-- An endpoint has one of four forms, in whatever order they are tried. -/
theorem isValid_iff : isValid v = true ↔ (∃ a, Socket.IsForm v a) ∨ (∃ a, Address.IsForm Address.strict v a) ∨
    HostName.IsHost v ∨ ∃ h p, v = h ++ ':' :: p ∧ HostName.IsHost h ∧ IsPort p := by
  simp only [isValid_eq, Bool.or_eq_true, Option.isSome_iff_exists, Socket.ofText?_eq_some_iff,
    Address.ofText?_eq_some_iff, or_assoc]
  refine or_congr_right (or_congr_right ?_)
  cases hsplit : splitLast? ':' v with
  | none =>
    have hcolon := splitLast?_eq_none_iff.1 hsplit
    simp only [HostName.isValid_iff]
    refine (or_iff_left ?_).symm
    rintro ⟨h, p, rfl, -, -⟩
    exact hcolon (by simp)
  | some q =>
    obtain ⟨h, p⟩ := q
    obtain ⟨rfl, hp⟩ := splitLast?_eq_some_iff.1 hsplit
    simp only [Bool.and_eq_true, Bool.not_eq_true', List.contains_eq_mem, decide_eq_false_iff_not, isPort_iff,
      HostName.isValid_iff]
    constructor
    · rintro ⟨⟨-, hport⟩, hhost⟩
      exact .inr ⟨h, p, rfl, hhost, hport⟩
    · rintro (hhost | ⟨h', p', heq, hhost, hport⟩)
      · exact absurd (by simp) hhost.colon_not_mem
      · have hlast := splitLast?_eq_some_iff.2 ⟨heq, hport.colon_not_mem⟩
        rw [hsplit] at hlast
        obtain ⟨rfl, rfl⟩ := Prod.mk.inj (Option.some.inj hlast)
        exact ⟨⟨hhost.colon_not_mem, hport⟩, hhost⟩

/-! ### Colons -/

theorem count_append_cons (hh : ':' ∉ h) (hp : ':' ∉ p) : (h ++ ':' :: p).count ':' = 1 := by
  rw [List.count_append, List.count_cons_self, List.count_eq_zero.2 hh, List.count_eq_zero.2 hp]

theorem not_isV6 {s : Address.Style} {groups : List Nat} (hv : v.count ':' ≤ 1) : ¬ Address.IsV6 s v groups := fun h =>
  absurd h.two_le_count (by omega)

/-- A socket of four octets has one colon, and one of groups has three or more. -/
theorem socket_cases {a : Socket} (h : Socket.IsForm v a) :
    (∃ x y octets, v = x ++ ':' :: y ∧ Address.IsV4 Address.strict x octets ∧ Socket.IsPort y a.port) ∨
      (∃ groups, a.address = .v6 groups) ∧ 3 ≤ v.count ':' := by
  cases h with
  | v4 hx hy => exact .inl ⟨_, _, _, rfl, hx, hy⟩
  | v6 hx _ _ =>
    have hcount := hx.two_le_count
    refine .inr ⟨⟨_, rfl⟩, ?_⟩
    rw [List.count_cons_of_ne (by decide), List.count_append, List.count_append, List.count_cons_of_ne (by decide),
      List.count_cons_self]
    omega

theorem isValid_of_no_colon (hv : ':' ∉ v) : isValid v = true ↔ HostName.IsHost v := by
  have hcount := List.count_eq_zero.2 hv
  rw [isValid_iff]
  constructor
  · rintro (⟨a, h⟩ | ⟨_, h | h⟩ | h | ⟨h, p, rfl, -, -⟩)
    · rcases socket_cases h with ⟨x, y, _, rfl, -, -⟩ | ⟨-, h⟩
      · exact absurd (by simp) hv
      · omega
    · exact .of_isV4 h
    · exact absurd h (not_isV6 (by omega))
    · exact h
    · exact absurd (by simp) hv
  · exact fun h => .inr (.inr (.inl h))

theorem isValid_of_one_colon (hh : ':' ∉ h) (hp : ':' ∉ p) :
    isValid (h ++ ':' :: p) = true ↔ HostName.IsHost h ∧ IsPort p := by
  have hcount := count_append_cons hh hp
  rw [isValid_iff]
  constructor
  · rintro (⟨a, h⟩ | ⟨_, h | h⟩ | h | ⟨_, _, heq, hhost, hport⟩)
    · rcases socket_cases h with ⟨x, y, _, heq, hx, hy⟩ | ⟨-, h⟩
      · obtain ⟨rfl, -, rfl⟩ := (List.append_cons_inj_of_notMem hh hp).1 heq
        exact ⟨.of_isV4 hx, _, _, .inl rfl, hy⟩
      · omega
    · exact absurd (by simp) h.colon_not_mem
    · exact absurd h (not_isV6 (by omega))
    · exact absurd (by simp) h.colon_not_mem
    · obtain ⟨rfl, -, rfl⟩ := (List.append_cons_inj_of_notMem hh hp).1 heq
      exact ⟨hhost, hport⟩
  · rintro ⟨hhost, hport⟩
    exact .inr (.inr (.inr ⟨h, p, rfl, hhost, hport⟩))

theorem isValid_of_two_colons (hv : 2 ≤ v.count ':') : isValid v = true ↔
    (∃ groups, Address.IsV6 Address.strict v groups) ∨ ∃ groups port, Socket.IsForm v ⟨.v6 groups, port⟩ := by
  have hmany : ∀ {x y}, v = x ++ ':' :: y → ':' ∉ x → ':' ∉ y → False := by
    rintro x y rfl hx hy
    rw [count_append_cons hx hy] at hv
    omega
  have hnone : ':' ∈ v := List.count_pos_iff.1 (by omega)
  rw [isValid_iff]
  constructor
  · rintro (⟨⟨address, port⟩, h⟩ | ⟨_, h | h⟩ | h | ⟨x, y, heq, hhost, hport⟩)
    · rcases socket_cases h with ⟨x, y, _, heq, hx, hy⟩ | ⟨⟨groups, rfl⟩, -⟩
      · exact (hmany heq hx.colon_not_mem hy.colon_not_mem).elim
      · exact .inr ⟨groups, port, h⟩
    · exact absurd hnone h.colon_not_mem
    · exact .inl ⟨_, h⟩
    · exact absurd hnone h.colon_not_mem
    · exact (hmany heq hhost.colon_not_mem hport.colon_not_mem).elim
  · rintro (⟨groups, h⟩ | ⟨groups, port, h⟩)
    · exact .inr (.inl ⟨_, .v6 h⟩)
    · exact .inl ⟨_, h⟩

/-! ### Main statement -/

/-- The rule for endpoints has nothing to say against a value. -/
def IsAccepted (v : Text) : Prop := ∀ s, (Rule.validate .endpoint v s).errors = []

theorem isAccepted_iff : IsAccepted v ↔ isValid v = true := by
  cases h : isValid v with
  | true => exact iff_of_true (fun s => by rw [Rule.validate, h]; rfl) rfl
  | false =>
    refine iff_of_false (fun hv => ?_) Bool.false_ne_true
    have hv := hv ⟨0, 0, .value⟩
    rw [Rule.validate, h] at hv
    cases hv

/-- Accepted values by the number of their colons: host names, of which addresses of four octets are some, without one;
an accepted value and a port with one; addresses in groups and their sockets with more. So a port may follow each
accepted value without a colon. -/
theorem accepted_by_colons :
    (∀ v, ':' ∉ v → (IsAccepted v ↔ HostName.IsHost v)) ∧
    (∀ v octets, Address.ofText? v = some (.v4 octets) → HostName.IsHost v) ∧
    (∀ h p, ':' ∉ h → ':' ∉ p → (IsAccepted (h ++ ':' :: p) ↔ IsAccepted h ∧ IsPort p)) ∧
    (∀ v, 2 ≤ v.count ':' → (IsAccepted v ↔ (∃ groups, Address.ofText? v = some (.v6 groups)) ∨
      ∃ groups port, Socket.ofText? v = some ⟨.v6 groups, port⟩)) ∧
    ∀ v p, ':' ∉ v → IsAccepted v → IsPort p → IsAccepted (v ++ ':' :: p) := by
  refine ⟨fun v hv => ?_, fun v octets h => ?_, fun h p hh hp => ?_, fun v hv => ?_, fun v p hv h hp => ?_⟩
  · rw [isAccepted_iff, isValid_of_no_colon hv]
  · cases Address.ofText?_eq_some_iff.1 h with
    | v4 h => exact .of_isV4 h
  · rw [isAccepted_iff, isAccepted_iff, isValid_of_no_colon hh, isValid_of_one_colon hh hp]
  · simp only [isAccepted_iff, isValid_of_two_colons hv, Socket.ofText?_eq_some_iff, Address.ofText?_eq_some_iff]
    refine or_congr_left (exists_congr fun groups => ⟨.v6, ?_⟩)
    intro h
    cases h with
    | v6 h => exact h
  · rw [isAccepted_iff, isValid_of_no_colon hv] at h
    rw [isAccepted_iff, isValid_of_one_colon hv hp.colon_not_mem]
    exact ⟨h, hp⟩

end Endpoint

end TunnelConf
