import Mathlib.Tactic.IntervalCases
import TunnelConf.Command.JsonText
import TunnelConf.Proofs.Text.Parts

/-!
# What JSON texts say

A JSON text says one value only (`JsonTree.render_inj`): what a value begins with tells its sort
(`JsonTree.sort_render`), and by induction it can be told where each of its parts ends. Numbers alone have no
end of their own, so what follows a value must not be a digit.
-/

namespace TunnelConf

open Text

namespace JsonTree

/-! ### Characters and texts -/

/-- The character at the start of a text, escaped or not, and what follows it. -/
def unescape : Text → Option (Char × Text)
  | '\\' :: 'n' :: t => some ('\n', t)
  | '\\' :: 'r' :: t => some ('\r', t)
  | '\\' :: 't' :: t => some ('\t', t)
  | '\\' :: 'b' :: t => some ('\x08', t)
  | '\\' :: 'f' :: t => some ('\x0c', t)
  | '\\' :: 'u' :: '0' :: '0' :: a :: b :: t =>
    some (Char.ofNat (16 * (digit? 16 a).getD 0 + (digit? 16 b).getD 0), t)
  | '\\' :: c :: t => some (c, t)
  | c :: t => some (c, t)
  | [] => none

theorem unescape_of_lt {n : Nat} (h : n < 32) (t : Text) :
    unescape ("\\u00".toList ++ Nat.toDigits 16 (n / 16) ++ Nat.toDigits 16 (n % 16) ++ t) =
      some (Char.ofNat n, t) := by
  interval_cases n <;> rfl

theorem unescape_escapeChar (c : Char) (t : Text) : unescape (escapeChar c ++ t) = some (c, t) := by
  by_cases hquote : c = '"'
  · subst hquote; rfl
  by_cases hback : c = '\\'
  · subst hback; rfl
  by_cases hn : c = '\n'
  · subst hn; rfl
  by_cases hr : c = '\r'
  · subst hr; rfl
  by_cases ht : c = '\t'
  · subst ht; rfl
  by_cases hb : c = '\x08'
  · subst hb; rfl
  by_cases hf : c = '\x0c'
  · subst hf; rfl
  by_cases hlt : c < ' '
  · have hlt' : c.toNat < 32 := hlt
    have he : escapeChar c =
        "\\u00".toList ++ Nat.toDigits 16 (c.toNat / 16) ++ Nat.toDigits 16 (c.toNat % 16) := by
      simp [escapeChar, hquote, hback, hn, hr, ht, hb, hf, hlt]
    rw [he, unescape_of_lt hlt', Char.ofNat_toNat]
  · have he : escapeChar c = [c] := by simp [escapeChar, hquote, hback, hn, hr, ht, hb, hf, hlt]
    rw [he, List.singleton_append]
    unfold unescape
    split <;> simp_all

theorem escapeChar_append_inj {c d : Char} {s t : Text} (h : escapeChar c ++ s = escapeChar d ++ t) :
    c = d ∧ s = t := by
  have he := congrArg unescape h
  rw [unescape_escapeChar, unescape_escapeChar] at he
  exact Prod.mk.inj (Option.some.inj he)

/-- A quotation mark in a text is escaped. -/
theorem head?_escapeChar_append (c : Char) (t : Text) : (escapeChar c ++ t).head? ≠ some '"' := by
  intro h
  obtain ⟨u, hu⟩ := List.head?_eq_some_iff.1 h
  have he := congrArg unescape hu
  rw [unescape_escapeChar] at he
  obtain ⟨rfl, -⟩ := Prod.mk.inj (Option.some.inj he)
  cases hu

theorem quote_append_inj {a b s t : Text} (h : quote a ++ s = quote b ++ t) : a = b ∧ s = t := by
  have hbody : a.flatMap escapeChar ++ '"' :: s = b.flatMap escapeChar ++ '"' :: t := by
    simpa [quote] using h
  clear h
  induction a generalizing b with
  | nil =>
    cases b with
    | nil => exact ⟨rfl, (List.cons.inj hbody).2⟩
    | cons d b =>
      rw [List.flatMap_cons, List.append_assoc] at hbody
      exact absurd (congrArg List.head? hbody).symm (head?_escapeChar_append d _)
  | cons c a ih =>
    cases b with
    | nil =>
      rw [List.flatMap_cons, List.append_assoc] at hbody
      exact absurd (congrArg List.head? hbody) (head?_escapeChar_append c _)
    | cons d b =>
      rw [List.flatMap_cons, List.flatMap_cons, List.append_assoc, List.append_assoc] at hbody
      obtain ⟨rfl, hrest⟩ := escapeChar_append_inj hbody
      obtain ⟨rfl, hs⟩ := ih hrest
      exact ⟨rfl, hs⟩

/-! ### Numbers -/

theorem isDigit_of_mem_ofNat {n : Nat} {c : Char} (h : c ∈ ofNat n) : c.isDigit = true :=
  Nat.isDigit_of_mem_toDigits (by decide) (by decide) h

theorem ofNat_append_inj {m n : Nat} {s t : Text} (hs : Stops Char.isDigit s) (ht : Stops Char.isDigit t)
    (h : ofNat m ++ s = ofNat n ++ t) : m = n ∧ s = t := by
  have hdigits : ofNat m = ofNat n := by
    have htake := congrArg (List.takeWhile Char.isDigit) h
    rwa [takeWhile_append_of_stops (fun _ => isDigit_of_mem_ofNat) hs,
      takeWhile_append_of_stops (fun _ => isDigit_of_mem_ofNat) ht] at htake
  refine ⟨?_, List.append_cancel_left (hdigits ▸ h)⟩
  have hvalue := congrArg (Nat.ofDigitChars 10 · 0) hdigits
  simpa only [ofNat, Nat.ofDigitChars_ten_toDigits] using hvalue

/-! ### Values -/

/-- What sort of value a tree is. -/
inductive Kind
  | null
  | bool
  | number
  | text
  | array
  | object

def kind : JsonTree → Kind
  | .null => .null
  | .bool _ => .bool
  | .number _ => .number
  | .text _ => .text
  | .array _ => .array
  | .object _ => .object

/-- The kind of a value whose text begins with the character. -/
def Kind.ofChar (c : Char) : Kind :=
  if c = 'n' then .null
  else if c = 't' ∨ c = 'f' then .bool
  else if c = '"' then .text
  else if c = '[' then .array
  else if c = '\x7b' then .object
  else .number

theorem Kind.ofChar_of_isDigit {c : Char} (h : c.isDigit = true) : ofChar c = .number := by
  have hne : ∀ d : Char, d.isDigit = false → c ≠ d := by
    rintro d hd rfl
    rw [h] at hd
    cases hd
  simp [ofChar, hne _ (show 'n'.isDigit = false from rfl), hne _ (show 't'.isDigit = false from rfl),
    hne _ (show 'f'.isDigit = false from rfl), hne _ (show '"'.isDigit = false from rfl),
    hne _ (show '['.isDigit = false from rfl), hne _ (show '\x7b'.isDigit = false from rfl)]

theorem kind_render (depth : Nat) (j : JsonTree) (s : Text) :
    (render depth j ++ s).head?.map Kind.ofChar = some j.kind := by
  cases j with
  | null => rfl
  | bool b => cases b <;> rfl
  | number n =>
    obtain ⟨c, digits, hc⟩ := List.exists_cons_of_ne_nil (Nat.toDigits_ne_nil (n := n) (b := 10))
    have hdigit : c.isDigit = true := isDigit_of_mem_ofNat (n := n) (by rw [ofNat, hc]; simp)
    rw [render, ofNat, hc]
    exact congrArg some (Kind.ofChar_of_isDigit hdigit)
  | text t => rfl
  | array items => cases items <;> rfl
  | object members => cases members <;> rfl

/-! ### Values within values -/

theorem stops_newLine (depth : Nat) (t : Text) : Stops Char.isDigit (newLine depth ++ t) := by
  simp [newLine]

theorem stops_renderItems (depth n : Nat) (items : List JsonTree) (t : Text) :
    Stops Char.isDigit (renderItems depth items ++ (newLine n ++ t)) := by
  cases items with
  | nil => exact stops_newLine n t
  | cons item items => simp [renderItems]

theorem stops_renderMembers (depth n : Nat) (members : List (String × JsonTree)) (t : Text) :
    Stops Char.isDigit (renderMembers depth members ++ (newLine n ++ t)) := by
  cases members with
  | nil => exact stops_newLine n t
  | cons m members => simp [renderMembers]

mutual

theorem render_append_inj {depth : Nat} {s t : Text} (a b : JsonTree) (hs : Stops Char.isDigit s)
    (ht : Stops Char.isDigit t) (h : render depth a ++ s = render depth b ++ t) : a = b ∧ s = t := by
  have hkind : a.kind = b.kind := by
    rw [← Option.some_inj, ← kind_render depth a s, h, kind_render]
  match a, b, hkind with
  | .null, .null, _ => exact ⟨rfl, List.append_cancel_left h⟩
  | .bool true, .bool true, _ => exact ⟨rfl, List.append_cancel_left h⟩
  | .bool false, .bool false, _ => exact ⟨rfl, List.append_cancel_left h⟩
  | .bool true, .bool false, _ => cases h
  | .bool false, .bool true, _ => cases h
  | .number m, .number n, _ =>
    obtain ⟨rfl, hst⟩ := ofNat_append_inj hs ht h
    exact ⟨rfl, hst⟩
  | .text x, .text y, _ =>
    obtain ⟨rfl, hst⟩ := quote_append_inj h
    exact ⟨rfl, hst⟩
  | .array [], .array [], _ => exact ⟨rfl, List.append_cancel_left h⟩
  | .array [], .array (_ :: _), _ => cases h
  | .array (_ :: _), .array [], _ => cases h
  | .array (x :: xs), .array (y :: ys), _ =>
    simp only [render, List.append_assoc, List.cons_append, List.cons.injEq, true_and,
      List.append_cancel_left_eq, List.nil_append] at h
    obtain ⟨rfl, hrest⟩ :=
      render_append_inj x y (stops_renderItems _ _ _ _) (stops_renderItems _ _ _ _) h
    obtain ⟨rfl, hst⟩ := renderItems_append_inj xs ys hrest
    exact ⟨rfl, (List.cons.inj hst).2⟩
  | .object [], .object [], _ => exact ⟨rfl, List.append_cancel_left h⟩
  | .object [], .object (_ :: _), _ => cases h
  | .object (_ :: _), .object [], _ => cases h
  | .object (x :: xs), .object (y :: ys), _ =>
    simp only [render, List.append_assoc, List.cons_append, List.cons.injEq, true_and,
      List.append_cancel_left_eq, List.nil_append] at h
    obtain ⟨rfl, hrest⟩ :=
      renderMember_append_inj x y (stops_renderMembers _ _ _ _) (stops_renderMembers _ _ _ _) h
    obtain ⟨rfl, hst⟩ := renderMembers_append_inj xs ys hrest
    exact ⟨rfl, (List.cons.inj hst).2⟩
termination_by structural a

/-- The items of an array end where the line of the closing bracket starts. -/
theorem renderItems_append_inj {depth n : Nat} {s t : Text} (xs ys : List JsonTree)
    (h : renderItems depth xs ++ (newLine n ++ s) = renderItems depth ys ++ (newLine n ++ t)) : xs = ys ∧ s = t := by
  match xs, ys with
  | [], [] => exact ⟨rfl, List.append_cancel_left h⟩
  | [], _ :: _ => cases h
  | _ :: _, [] => cases h
  | x :: xs, y :: ys =>
    simp only [renderItems, List.append_assoc, List.cons_append, List.cons.injEq, true_and,
      List.append_cancel_left_eq] at h
    obtain ⟨rfl, hrest⟩ :=
      render_append_inj x y (stops_renderItems _ _ _ _) (stops_renderItems _ _ _ _) h
    obtain ⟨rfl, hst⟩ := renderItems_append_inj xs ys hrest
    exact ⟨rfl, hst⟩
termination_by structural xs

theorem renderMember_append_inj {depth : Nat} {s t : Text} (m m' : String × JsonTree) (hs : Stops Char.isDigit s)
    (ht : Stops Char.isDigit t) (h : renderMember depth m ++ s = renderMember depth m' ++ t) : m = m' ∧ s = t := by
  match m, m' with
  | (key, x), (key', y) =>
    simp only [renderMember, List.append_assoc] at h
    obtain ⟨hkey, hrest⟩ := quote_append_inj h
    obtain ⟨rfl, hst⟩ := render_append_inj x y hs ht (List.append_cancel_left hrest)
    exact ⟨by rw [String.toList_inj.1 hkey], hst⟩
termination_by structural m

theorem renderMembers_append_inj {depth n : Nat} {s t : Text} (xs ys : List (String × JsonTree))
    (h : renderMembers depth xs ++ (newLine n ++ s) = renderMembers depth ys ++ (newLine n ++ t)) :
    xs = ys ∧ s = t := by
  match xs, ys with
  | [], [] => exact ⟨rfl, List.append_cancel_left h⟩
  | [], _ :: _ => cases h
  | _ :: _, [] => cases h
  | x :: xs, y :: ys =>
    simp only [renderMembers, List.append_assoc, List.cons_append, List.cons.injEq, true_and,
      List.append_cancel_left_eq] at h
    obtain ⟨rfl, hrest⟩ :=
      renderMember_append_inj x y (stops_renderMembers _ _ _ _) (stops_renderMembers _ _ _ _) h
    obtain ⟨rfl, hst⟩ := renderMembers_append_inj xs ys hrest
    exact ⟨rfl, hst⟩
termination_by structural xs

end

/-- A text says one value only. -/
theorem render_inj {depth : Nat} {a b : JsonTree} : render depth a = render depth b ↔ a = b := by
  constructor
  · intro h
    exact (render_append_inj a b (s := []) (t := []) stops_nil stops_nil (by rw [h])).1
  · rintro rfl
    rfl

end JsonTree

end TunnelConf
