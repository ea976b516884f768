/-!
# Text measured in UTF-8 bytes

A text is the list of its characters. Offsets into it count the bytes of its UTF-8 form, so an
offset may fall inside a character; `Text.cut?` divides a text at an offset and has no answer
there. `size_append` and `cut?_append` relate the two measures.
-/

namespace TunnelConf

abbrev Text := List Char

namespace Text

/-- The number of bytes of the UTF-8 form. -/
def size : Text → Nat
  | [] => 0
  | c :: t => c.utf8Size + size t

/-- The parts before and after the byte offset `n`, if `n` is a character boundary of the text. -/
def cut? (n : Nat) : Text → Option (Text × Text)
  | [] => if n = 0 then some ([], []) else none
  | c :: t =>
    if n = 0 then some ([], c :: t)
    else if c.utf8Size ≤ n then (cut? (n - c.utf8Size) t).map fun p => (c :: p.1, p.2)
    else none

/-- The `len` bytes that start at byte `start`, if both ends are character boundaries. -/
def slice? (start len : Nat) (t : Text) : Option Text := do
  let (_, rest) ← cut? start t
  let (part, _) ← cut? len rest
  return part

/-- Whether the byte offset `n` is a character boundary of the text. -/
def isBoundary (n : Nat) (t : Text) : Bool := (cut? n t).isSome

/-- The text without the longest final run of characters satisfying `p`. -/
def trimEndWhile (p : Char → Bool) : Text → Text
  | [] => []
  | c :: t =>
    match trimEndWhile p t with
    | [] => if p c then [] else [c]
    | d :: r => c :: d :: r

/-- The text without its first and last runs of characters satisfying `p`. -/
def trimWhile (p : Char → Bool) (t : Text) : Text := trimEndWhile p (t.dropWhile p)

/-- The stretches between the characters satisfying `p`, empty ones included. -/
def splitWhere (p : Char → Bool) : Text → List Text
  | [] => [[]]
  | c :: t =>
    if p c then [] :: splitWhere p t
    else
      match splitWhere p t with
      | [] => [[c]]
      | s :: ss => (c :: s) :: ss

/-- The parts before and after the first `c`. -/
def splitFirst? (c : Char) : Text → Option (Text × Text)
  | [] => none
  | d :: t => if d = c then some ([], t) else (splitFirst? c t).map fun p => (d :: p.1, p.2)

/-- The parts before and after the last `c`. -/
def splitLast? (c : Char) : Text → Option (Text × Text)
  | [] => none
  | d :: t =>
    match splitLast? c t with
    | some (a, b) => some (d :: a, b)
    | none => if d = c then some ([], t) else none

/-- The lexicographic order by code point, which is also the order of the UTF-8 forms. -/
def ble : Text → Text → Bool
  | [], _ => true
  | _ :: _, [] => false
  | a :: s, b :: t => a < b || (a == b && ble s t)

@[simp] theorem size_nil : size [] = 0 := rfl

@[simp] theorem size_cons (c : Char) (t : Text) : size (c :: t) = c.utf8Size + size t := rfl

@[simp] theorem size_append (s t : Text) : size (s ++ t) = size s + size t := by
  induction s with
  | nil => simp
  | cons c s ih => simp [ih, Nat.add_assoc]

@[simp] theorem cut?_zero (t : Text) : cut? 0 t = some ([], t) := by
  cases t <;> simp [cut?]

/-- A text is cut in two at the size of its first part. -/
@[simp] theorem cut?_append (s t : Text) : cut? (size s) (s ++ t) = some (s, t) := by
  induction s with
  | nil => simp
  | cons c s ih =>
    have := Char.utf8Size_pos c
    simp [cut?, ih]
    omega

/-- What a cut yields is the text again. -/
theorem append_of_cut? {n : Nat} {t a b : Text} (h : cut? n t = some (a, b)) :
    a ++ b = t ∧ size a = n := by
  induction t generalizing n a b with
  | nil =>
    simp only [cut?] at h
    split at h <;> simp_all
  | cons c t ih =>
    simp only [cut?] at h
    split at h
    · simp_all
    · split at h
      · rw [Option.map_eq_some_iff] at h
        obtain ⟨⟨a', b'⟩, h₁, h₂⟩ := h
        simp only [Prod.mk.injEq] at h₂
        obtain ⟨rfl, rfl⟩ := h₂
        obtain ⟨h₃, h₄⟩ := ih h₁
        exact ⟨by simp [h₃], by simp only [size_cons]; omega⟩
      · simp at h

end Text

end TunnelConf
