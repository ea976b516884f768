import TunnelConf.Proofs.Text.Parts
import TunnelConf.Storage.Replace

/-!
# Paths of siblings

The backup and the temporary file of a file stand beside it under names of their own. The last part of a
path with a suffix is the name of the file with that suffix (`parts_withSuffix`), and no two suffixes
that are in use give one name (`temporarySuffix_inj`, `siblingName_ne`).
-/

namespace TunnelConf

open Text

namespace Path

variable {p n part suffix : Text}

/-! ### Parts of a path -/

theorem slash_not_mem_of_mem_parts (h : part ∈ parts p) : '/' ∉ part := by
  intro hc
  have := forall_of_mem_splitWhere h '/' hc
  cases this

theorem parts_append_slash (a b : Text) : parts (a ++ '/' :: b) = parts a ++ parts b :=
  splitWhere_append_cons rfl a b

theorem parts_of_not_mem (h : '/' ∉ n) : parts n = [n] := by
  apply splitWhere_eq_singleton
  intro c hc
  rw [isSlash, beq_eq_false_iff_ne]
  rintro rfl
  exact h hc

theorem join_of_not_mem (h : '/' ∉ n) :
    join p n = if p.isEmpty || p.getLast? = some '/' then p ++ n else p ++ '/' :: n := by
  rw [join, if_neg]
  intro hhead
  exact h (List.mem_of_mem_head? hhead)

theorem parts_join (hn : '/' ∉ n) (hp : p ≠ []) (hlast : p.getLast? ≠ some '/') :
    parts (join p n) = parts p ++ [n] := by
  rw [join_of_not_mem hn, if_neg (by simp [hp, hlast]), parts_append_slash, parts_of_not_mem hn]

theorem exists_parts_join (hn : '/' ∉ n) (p : Text) : ∃ ps, parts (join p n) = ps ++ [n] := by
  by_cases hp : p = []
  · refine ⟨[], ?_⟩
    rw [join_of_not_mem hn, hp]
    exact parts_of_not_mem hn
  by_cases hlast : p.getLast? = some '/'
  · obtain ⟨q, rfl⟩ := List.getLast?_eq_some_iff.1 hlast
    refine ⟨parts q, ?_⟩
    rw [join_of_not_mem hn, if_pos (by simp), List.append_assoc, List.singleton_append, parts_append_slash,
      parts_of_not_mem hn]
  · exact ⟨parts p, parts_join hn hp hlast⟩

theorem getLast?_parts_of_slash (h : p.getLast? = some '/') : (parts p).getLast? = some [] := by
  obtain ⟨q, rfl⟩ := List.getLast?_eq_some_iff.1 h
  rw [parts_append_slash]
  exact List.getLast?_concat

/-! ### The name of the file -/

theorem component?_eq_name_iff {m : Text} :
    component? part = some (.name m) ↔ m = part ∧ part ≠ [] ∧ part ≠ ['.'] ∧ part ≠ ['.', '.'] := by
  unfold component?
  split
  · next h =>
    rw [Bool.or_eq_true, decide_eq_true_eq, decide_eq_true_eq] at h
    rcases h with rfl | rfl <;> simp
  split
  · next h => simp [h]
  · next h₁ h₂ =>
    rw [Bool.or_eq_true, decide_eq_true_eq, decide_eq_true_eq, not_or] at h₁
    simp [h₁, h₂, eq_comm]

theorem component?_cases (part : Text) :
    component? part = none ∨ part = ['.', '.'] ∨ component? part = some (.name part) := by
  unfold component?
  split
  · exact .inl rfl
  split
  · next h => exact .inr (.inl h)
  · exact .inr (.inr rfl)

/-- What stands before the body of a path is passed over. -/
theorem exists_parts_eq_append_body (p : Text) :
    ∃ front, parts p = front ++ (body p).2 ∧ ∀ part ∈ front, component? part = none := by
  obtain ⟨a, ps, hps⟩ := List.exists_cons_of_ne_nil (splitWhere_ne_nil isSlash p)
  change parts p = a :: ps at hps
  unfold body head
  rw [hps]
  by_cases hroot : p.head? = some '/'
  · obtain ⟨q, rfl⟩ := List.head?_eq_some_iff.1 hroot
    have ha : a = [] := by
      have := hps
      rw [← List.nil_append ('/' :: q), parts_append_slash] at this
      exact (List.cons.inj this).1.symm
    refine ⟨[a], by simp, ?_⟩
    simp [ha, component?]
  by_cases hdot : a = ['.']
  · refine ⟨[a], by simp [hroot, hdot], ?_⟩
    simp [hdot, component?]
  · exact ⟨[], by simp [hroot, hdot], by simp⟩

/-- A last part that is passed over in no path is the last part of the body. -/
theorem exists_body_eq_concat {ps : List Text} (h : parts p = ps ++ [part]) (hc : component? part ≠ none) :
    ∃ qs, (body p).2 = qs ++ [part] := by
  obtain ⟨front, hp, hfront⟩ := exists_parts_eq_append_body p
  rcases List.eq_nil_or_concat' (body p).2 with hnil | ⟨qs, q, hq⟩
  · rw [hnil, List.append_nil] at hp
    exact absurd (hfront part (by rw [← hp, h]; simp)) hc
  · rw [hq, h, ← List.append_assoc] at hp
    exact ⟨qs, by rw [hq, List.append_inj_right' hp rfl]⟩

theorem splitName?_eq (p : Text) :
    splitName? p = match (body p).2.reverse.dropWhile fun part => (component? part).isNone with
      | [] => none
      | last :: before =>
        if last = ['.', '.'] then none
        else some (last, (before.dropWhile fun part => (component? part).isNone).reverse) := rfl

theorem fileName?_of_name {ps : List Text} (h : parts p = ps ++ [part])
    (hc : component? part = some (.name n)) : fileName? p = some part := by
  obtain ⟨qs, hq⟩ := exists_body_eq_concat h (by rw [hc]; simp)
  obtain ⟨-, -, -, hne⟩ := component?_eq_name_iff.1 hc
  rw [fileName?, splitName?_eq, hq, List.reverse_concat, List.dropWhile_cons_of_neg (by simp [hc])]
  simp only [if_neg hne, Option.map_some]

theorem splitName?_of_parent {ps : List Text} (h : parts p = ps ++ [['.', '.']]) : splitName? p = none := by
  obtain ⟨qs, hq⟩ := exists_body_eq_concat h (by simp [component?])
  rw [splitName?_eq, hq, List.reverse_concat, List.dropWhile_cons_of_neg (by simp [component?])]
  exact if_pos rfl

theorem mem_parts_of_fileName? (h : fileName? p = some n) : n ∈ parts p := by
  obtain ⟨front, hp, -⟩ := exists_parts_eq_append_body p
  rw [fileName?, splitName?_eq, Option.map_eq_some_iff] at h
  obtain ⟨⟨m, before⟩, hm, rfl⟩ := h
  split at hm
  · cases hm
  · next last rest hdrop =>
    split at hm
    · cases hm
    · obtain ⟨rfl, -⟩ := Prod.mk.inj (Option.some.inj hm)
      have hmem : last ∈ (body p).2.reverse := by
        apply (List.dropWhile_sublist _).mem
        rw [hdrop]
        exact List.mem_cons_self ..
      rw [hp]
      exact List.mem_append_right _ (List.mem_reverse.1 hmem)

/-! ### Names with a suffix -/

/-- A suffix makes names that are one part of a path and neither the directory nor the one above it. -/
structure IsSuffix (suffix : Text) : Prop where
  slash_not_mem : '/' ∉ suffix
  two_le_length : 2 ≤ suffix.length

/-- The name that a path with a suffix ends in. -/
def siblingName (p suffix : Text) : Text := (fileName? p).getD [] ++ '.' :: suffix

theorem slash_not_mem_siblingName (h : IsSuffix suffix) : '/' ∉ siblingName p suffix := by
  rw [siblingName, List.mem_append, List.mem_cons, not_or, not_or]
  refine ⟨?_, by decide, h.slash_not_mem⟩
  cases hn : fileName? p with
  | none => exact List.not_mem_nil
  | some n => exact slash_not_mem_of_mem_parts (mem_parts_of_fileName? hn)

theorem parts_withSuffix (h : IsSuffix suffix) :
    ∃ ps, parts (withSuffix p suffix) = ps ++ [siblingName p suffix] := by
  rw [withSuffix, withFileName]
  split <;> exact exists_parts_join (slash_not_mem_siblingName h) _

/-- Beside a path that ends in the directory above, a sibling is below the path. -/
theorem withSuffix_of_parent {ps : List Text} (h : parts p = ps ++ [['.', '.']]) (hs : IsSuffix suffix) :
    parts (withSuffix p suffix) = parts p ++ [siblingName p suffix] ∧
      (withSuffix p suffix).head? = p.head? := by
  have hp : p ≠ [] := by
    rintro rfl
    have := congrArg List.getLast? h
    rw [List.getLast?_concat] at this
    cases this
  have hlast : p.getLast? ≠ some '/' := by
    intro hslash
    have := getLast?_parts_of_slash hslash
    rw [h, List.getLast?_concat] at this
    cases this
  have hn := slash_not_mem_siblingName (p := p) hs
  have hw : withSuffix p suffix = join p (siblingName p suffix) := by
    rw [withSuffix, withFileName, splitName?_of_parent h]
    rfl
  refine ⟨hw ▸ parts_join hn hp hlast, ?_⟩
  rw [hw, join_of_not_mem hn, if_neg (by simp [hp, hlast]), List.head?_append_of_ne_nil _ hp]

theorem component?_siblingName (h : IsSuffix suffix) :
    component? (siblingName p suffix) = some (.name (siblingName p suffix)) := by
  have hlen : 3 ≤ (siblingName p suffix).length := by
    have := h.two_le_length
    rw [siblingName, List.length_append, List.length_cons]
    omega
  refine component?_eq_name_iff.2 ⟨rfl, ?_, ?_, ?_⟩ <;>
    · intro he
      rw [he] at hlen
      simp at hlen

theorem siblingName_ne {s : Text} (h : suffix ≠ s) : siblingName p suffix ≠ siblingName p s := by
  intro he
  exact h (List.cons.inj (List.append_cancel_left he)).2

theorem siblingName_ne_of_fileName? (h : fileName? p = some n) : siblingName p suffix ≠ n := by
  intro he
  have hlen := congrArg List.length he
  rw [siblingName, h, Option.getD_some, List.length_append, List.length_cons] at hlen
  omega

end Path

namespace FileTree

/-! ### Suffixes in use -/

/-- The suffix of the temporary sibling with a number. -/
def temporarySuffix (n : Nat) : Text := "tmp".toList ++ if n = 0 then [] else Text.ofNat n

theorem temporarySuffix_inj {m n : Nat} (h : temporarySuffix m = temporarySuffix n) : m = n := by
  have hd := List.append_cancel_left h
  split at hd <;> split at hd
  · next hm hn => rw [hm, hn]
  · exact absurd hd.symm Nat.toDigits_ne_nil
  · exact absurd hd Nat.toDigits_ne_nil
  · have hv := congrArg (Nat.ofDigitChars 10 · 0) hd
    simpa only [Text.ofNat, Nat.ofDigitChars_ten_toDigits] using hv

theorem isSuffix_temporary (n : Nat) : Path.IsSuffix (temporarySuffix n) where
  slash_not_mem := by
    rw [temporarySuffix, List.mem_append, not_or]
    refine ⟨by decide, ?_⟩
    split
    · exact List.not_mem_nil
    · intro h
      have hd := Nat.isDigit_of_mem_toDigits (by decide) (by decide) h
      revert hd
      decide
  two_le_length := by
    rw [temporarySuffix, List.length_append]
    exact Nat.le_add_right_of_le (by decide)

theorem isSuffix_bak : Path.IsSuffix "bak".toList := ⟨by decide, by decide⟩

theorem bak_ne_temporarySuffix (n : Nat) : "bak".toList ≠ temporarySuffix n := by
  intro h
  cases (List.cons.inj h).1

end FileTree

end TunnelConf
