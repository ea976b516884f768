import Mathlib.Data.List.Pairwise
import TunnelConf.Proofs.Scan.Layout

/-!
# Tokens are the longest runs between delimiters

`Token.IsRun` says what a token of a value is: a stretch without delimiters, with a delimiter or an end of the
value on either side. The tokens of a value are these runs from left to right (`mem_ofValue_iff`), and the loop
that keeps the start of an open token comes to the same list (`sweep_eq`). Main statement: `ofValue_exact`.
-/

namespace TunnelConf

open Text

namespace Token

variable {n : Nat} {value t w rest a b : Text} {c : Char} {k l : Token}

/-- The token is a longest stretch of the value without delimiters. -/
structure IsRun (value : Text) (k : Token) : Prop where
  ne_nil : k.text ≠ []
  plain : ∀ c ∈ k.text, isDelimiter c = false
  between : ∃ a b, value = a ++ k.text ++ b ∧ size a = k.start ∧
    (∀ c ∈ a.getLast?, isDelimiter c = true) ∧ ∀ c ∈ b.head?, isDelimiter c = true

/-! ### Run by run -/

/-- A text is taken apart from the left, delimiter by delimiter and run by run. -/
@[elab_as_elim]
theorem induction_on_runs {motive : Text → Prop} (t : Text) (nil : motive [])
    (delimiter : ∀ c t, isDelimiter c = true → motive t → motive (c :: t))
    (run : ∀ w rest, w ≠ [] → (∀ c ∈ w, isDelimiter c = false) → (∀ c ∈ rest.head?, isDelimiter c = true) →
      motive rest → motive (w ++ rest)) : motive t := by
  induction hn : t.length using Nat.strong_induction_on generalizing t with
  | _ n ih =>
    obtain ⟨w, rest, rfl, hw, hrest⟩ := exists_run (fun c => !isDelimiter c) t
    simp only [Bool.not_eq_true'] at hw
    have hrest : ∀ c ∈ rest.head?, isDelimiter c = true := fun c hc => by simpa using hrest c hc
    by_cases hne : w = []
    · subst hne
      cases rest with
      | nil => exact nil
      | cons c t => exact delimiter c t (hrest c rfl) (ih _ (by simp [← hn]) t rfl)
    · have := List.length_pos_of_ne_nil hne
      exact run w rest hne hw hrest (ih _ (by simp [← hn]; omega) rest rfl)

/-- The tokens of a text that starts at the offset `n`. -/
def startingAt (n : Nat) (t : Text) : List Token :=
  (placed n (splitWhere isDelimiter t)).filter fun k => !k.text.isEmpty

theorem ofValue_eq (value : Text) : ofValue value = startingAt 0 value := rfl

@[simp] theorem startingAt_nil : startingAt n [] = [] := rfl

theorem startingAt_cons (hc : isDelimiter c = true) (n : Nat) (t : Text) :
    startingAt n (c :: t) = startingAt (n + c.utf8Size) t := by
  rw [startingAt, splitWhere, if_pos hc, isDelimiter_size hc]
  rfl

/-- A run comes first if no more of it follows. -/
theorem startingAt_run (hne : w ≠ []) (hw : ∀ c ∈ w, isDelimiter c = false)
    (hrest : ∀ c ∈ rest.head?, isDelimiter c = true) (n : Nat) :
    startingAt n (w ++ rest) = ⟨n, w⟩ :: startingAt (n + size w) rest := by
  cases rest with
  | nil =>
    rw [startingAt, List.append_nil, splitWhere_eq_singleton hw]
    simp [placed, hne]
  | cons d rest =>
    have hd : isDelimiter d = true := hrest d rfl
    rw [startingAt, splitWhere_append_cons hd, splitWhere_eq_singleton hw, startingAt_cons hd, isDelimiter_size hd]
    simp [placed, startingAt, hne]

theorem getLast?_of_append (hne : b ≠ []) (h : ∀ c ∈ (a ++ b).getLast?, isDelimiter c = true) :
    ∀ c ∈ b.getLast?, isDelimiter c = true := by
  rwa [List.getLast?_append_of_ne_nil a hne] at h

/-- Behind a delimiter the tokens are those of the rest. -/
theorem startingAt_append (ha : ∀ c ∈ a.getLast?, isDelimiter c = true) (n : Nat) (b : Text) :
    startingAt n (a ++ b) = startingAt n a ++ startingAt (n + size a) b := by
  induction a using induction_on_runs generalizing n with
  | nil => rfl
  | delimiter c t hc ih =>
    have ht : ∀ c ∈ t.getLast?, isDelimiter c = true := by
      cases t with
      | nil => simp
      | cons d t => exact ha
    rw [List.cons_append, startingAt_cons hc, startingAt_cons hc, ih ht, size_cons, Nat.add_assoc]
  | run w rest hne hw hrest ih =>
    have hrest' : rest ≠ [] := by
      rintro rfl
      rw [List.append_nil] at ha
      have hlast := List.getLast?_eq_getLast_of_ne_nil hne
      have hc := ha _ hlast
      rw [hw _ (List.mem_of_getLast? hlast)] at hc
      cases hc
    have hstop : ∀ c ∈ (rest ++ b).head?, isDelimiter c = true := by
      rwa [List.head?_append_of_ne_nil _ hrest']
    rw [List.append_assoc, startingAt_run hne hw hstop, startingAt_run hne hw hrest,
      ih (getLast?_of_append hrest' ha), size_append, List.cons_append, Nat.add_assoc]

/-- The tokens of a text are its runs. -/
theorem exists_of_mem_startingAt (h : k ∈ startingAt n t) :
    k.text ≠ [] ∧ (∀ c ∈ k.text, isDelimiter c = false) ∧
      ∃ a b, t = a ++ k.text ++ b ∧ n + size a = k.start ∧
        (∀ c ∈ a.getLast?, isDelimiter c = true) ∧ ∀ c ∈ b.head?, isDelimiter c = true := by
  induction t using induction_on_runs generalizing n with
  | nil => simp at h
  | delimiter c t hc ih =>
    rw [startingAt_cons hc] at h
    obtain ⟨hne, hplain, a, b, rfl, ha, hlast, hhead⟩ := ih h
    refine ⟨hne, hplain, c :: a, b, rfl, by rw [← ha, size_cons, Nat.add_assoc], ?_, hhead⟩
    cases a with
    | nil => simpa using hc
    | cons d a => exact hlast
  | run w rest hne hw hrest ih =>
    rw [startingAt_run hne hw hrest] at h
    rcases List.mem_cons.1 h with rfl | h
    · exact ⟨hne, hw, [], rest, rfl, rfl, by simp, hrest⟩
    · obtain ⟨hkne, hplain, a, b, rfl, ha, hlast, hhead⟩ := ih h
      refine ⟨hkne, hplain, w ++ a, b, by simp, by rw [← ha, size_append, Nat.add_assoc], ?_, hhead⟩
      -- a token does not go on with a run in front of it
      have hane : a ≠ [] := by
        rintro rfl
        obtain ⟨c, u, hu⟩ := List.exists_cons_of_ne_nil hkne
        have hc : isDelimiter c = true := hrest c (by simp [hu])
        rw [hplain c (by simp [hu])] at hc
        cases hc
      rwa [List.getLast?_append_of_ne_nil w hane]

theorem mem_ofValue_iff : k ∈ ofValue value ↔ IsRun value k := by
  rw [ofValue_eq]
  constructor
  · intro h
    obtain ⟨hne, hplain, a, b, hvalue, ha, hlast, hhead⟩ := exists_of_mem_startingAt h
    exact ⟨hne, hplain, a, b, hvalue, by omega, hlast, hhead⟩
  · rintro ⟨hne, hplain, a, b, rfl, ha, hlast, hhead⟩
    rw [List.append_assoc, startingAt_append hlast, startingAt_run hne hplain hhead]
    simp [ha]

/-! ### The loop -/

/-- Goes through the `rest` of a value, which starts at the offset `idx`. A token is open from `start?` on, and
ends at a delimiter or at the end of the value. -/
def sweep (value : Text) (idx : Nat) (start? : Option Nat) (found : List Token) : Text → Option (List Token)
  | [] =>
    match start? with
    | none => some found
    | some start => (slice? start (size value - start) value).map fun u => found ++ [⟨start, u⟩]
  | c :: rest =>
    match isDelimiter c, start? with
    | true, some start => (slice? start (idx - start) value).bind fun u =>
        sweep value (idx + c.utf8Size) none (found ++ [⟨start, u⟩]) rest
    | false, none => sweep value (idx + c.utf8Size) (some idx) found rest
    | _, _ => sweep value (idx + c.utf8Size) start? found rest

/-- What is left to find are the tokens of the rest if no token is open, and those from its start on if one is. -/
theorem sweep_spec (value rest : Text) :
    (∀ a found, value = a ++ rest → sweep value (size a) none found rest = some (found ++ startingAt (size a) rest)) ∧
    ∀ a w found, value = a ++ w ++ rest → w ≠ [] → (∀ c ∈ w, isDelimiter c = false) →
      sweep value (size (a ++ w)) (some (size a)) found rest = some (found ++ startingAt (size a) (w ++ rest)) := by
  have hopen : ∀ a w : Text, size (a ++ w) - size a = size w := fun a w => by simp
  induction rest with
  | nil =>
    refine ⟨fun a found _ => by simp [sweep], fun a w found hvalue hne hw => ?_⟩
    have hslice : slice? (size a) (size w) value = some w := slice?_eq_some_iff.2 ⟨a, [], hvalue, rfl, rfl⟩
    rw [List.append_nil] at hvalue
    rw [startingAt_run hne hw (by simp), sweep, hvalue, hopen, ← hvalue, hslice]
    rfl
  | cons c rest ih =>
    obtain ⟨ihnone, ihsome⟩ := ih
    have hsize : ∀ a : Text, size a + c.utf8Size = size (a ++ [c]) := fun a => by simp
    cases hc : isDelimiter c with
    | true =>
      refine ⟨fun a found hvalue => ?_, fun a w found hvalue hne hw => ?_⟩
      · simp only [sweep, hc]
        rw [startingAt_cons hc, hsize]
        exact ihnone (a ++ [c]) found (by simp [hvalue])
      · have hslice : slice? (size a) (size w) value = some w :=
          slice?_eq_some_iff.2 ⟨a, c :: rest, hvalue, rfl, rfl⟩
        simp only [sweep, hc, hopen, hslice, Option.bind_some]
        rw [startingAt_run hne hw (by simpa using hc), startingAt_cons hc, ← size_append, hsize,
          ihnone (a ++ w ++ [c]) _ (by simp [hvalue]), List.append_assoc]
        rfl
    | false =>
      refine ⟨fun a found hvalue => ?_, fun a w found hvalue hne hw => ?_⟩
      · simp only [sweep, hc]
        rw [hsize]
        exact ihsome a [c] found (by simp [hvalue]) (by simp) (by simpa using hc)
      · have hplain : ∀ d ∈ w ++ [c], isDelimiter d = false := by
          intro d hd
          rcases List.mem_append.1 hd with hd | hd
          · exact hw d hd
          · rwa [List.mem_singleton.1 hd]
        simp only [sweep, hc]
        rw [hsize, List.append_assoc, List.append_cons w c rest]
        exact ihsome a (w ++ [c]) found (by simp [hvalue]) (by simp) hplain

theorem sweep_eq (value : Text) : sweep value 0 none [] value = some (ofValue value) :=
  (sweep_spec value value).1 [] [] rfl

/-! ### Characters -/

theorem IsRun.bounds (h : IsRun value k) : k.start < k.stop ∧ k.stop ≤ size value ∧
    isBoundary k.start value = true ∧ isBoundary k.stop value = true ∧
    slice? k.start (k.stop - k.start) value = some k.text := by
  obtain ⟨a, b, rfl, ha, -, -⟩ := h.between
  have hpos := size_pos_iff.2 h.ne_nil
  have hstop : k.stop = size (a ++ k.text) := by rw [stop, ← ha, size_append]
  have hlen : k.stop - k.start = size k.text := by rw [stop]; omega
  refine ⟨by rw [stop]; omega, by rw [hstop, size_append (a ++ k.text)]; omega, ?_, ?_, ?_⟩
  · rw [← ha, List.append_assoc]
    exact isBoundary_append a (k.text ++ b)
  · rw [hstop]
    exact isBoundary_append (a ++ k.text) b
  · rw [hlen]
    exact slice?_eq_some_iff.2 ⟨a, b, rfl, ha, rfl⟩

theorem eq_of_mem_of_mem {i : Nat} (hk : k ∈ ofValue value) (hl : l ∈ ofValue value)
    (hik : k.start ≤ i ∧ i < k.stop) (hil : l.start ≤ i ∧ i < l.stop) : k = l := by
  have happart : (ofValue value).Pairwise fun k l => k.stop < l.start ∨ l.stop < k.start :=
    (pairwise_ofValue value).imp .inl
  have : Std.Symm fun k l : Token => k.stop < l.start ∨ l.stop < k.start := ⟨fun _ _ => Or.symm⟩
  by_contra hne
  have := happart.forall hk hl hne
  omega

/-- The run around a character that is no delimiter is the one token that covers it. -/
theorem existsUnique_mem_ofValue (hc : isDelimiter c = false) (a b : Text) :
    ∃! k, k ∈ ofValue (a ++ c :: b) ∧ k.start ≤ size a ∧ size a + c.utf8Size ≤ k.stop := by
  have hpos := Char.utf8Size_pos c
  obtain ⟨u, ha, hu, hlast⟩ := exists_trimEndWhile (fun c => !isDelimiter c) a
  obtain ⟨v, y, rfl, hv, hhead⟩ := exists_run (fun c => !isDelimiter c) b
  generalize trimEndWhile (fun c => !isDelimiter c) a = x at ha hlast
  subst ha
  have hrun : IsRun (x ++ u ++ c :: (v ++ y)) ⟨size x, u ++ c :: v⟩ := by
    refine ⟨by simp, fun d hd => ?_, x, y, by simp, rfl, fun d hd => ?_, fun d hd => ?_⟩
    · rcases List.mem_append.1 hd with hd | hd
      · simpa using hu d hd
      · rcases List.mem_cons.1 hd with rfl | hd
        · exact hc
        · simpa using hv d hd
    · simpa using hlast d hd
    · simpa using hhead d hd
  refine ⟨_, ⟨mem_ofValue_iff.2 hrun, ?_, ?_⟩, ?_⟩
  · simp
  · simp [stop]
    omega
  · rintro l ⟨hl, hstart, hstop⟩
    refine eq_of_mem_of_mem hl (mem_ofValue_iff.2 hrun) (i := size (x ++ u)) ⟨hstart, by omega⟩ ⟨?_, ?_⟩
    · simp
    · simp [stop]
      omega

end Token

/-! ### Rules for lists -/

/-- The rule is for lists: it checks each token of a value, and has the finding for those that it rejects. -/
inductive Rule.ChecksTokens : Rule → (Text → Bool) → Finding → Prop
  | addressList : ChecksTokens .addressList isAddressOrSubnet .invalidAddressOrSubnet
  | dnsList : ChecksTokens .dnsList (fun t => (Address.ofText? t).isSome) .invalidDnsAddress
  | pathList : ChecksTokens .pathList ProgramPath.isValid .invalidPathPattern

theorem Rule.ChecksTokens.errors_validate {r : Rule} {p : Text → Bool} {f : Finding} (h : r.ChecksTokens p f)
    (value : Text) (s : Span) : (r.validate value s).errors =
      ((Token.ofValue value).filter fun k => !p k.text).map fun k =>
        .error ⟨s.start + k.start, k.stop - k.start, s.role⟩ f := by
  have hlen : ∀ k : Token, k.stop - k.start = size k.text := fun k => by rw [Token.stop]; omega
  simp only [hlen]
  cases h <;> rfl

namespace Token

/-- The tokens of a value are exactly its longest runs between delimiters, from left to right. They lie apart inside
the value, and each character that is no delimiter is in one of them. A rule for lists reports the tokens that it
rejects, at the places that they have in the value. -/
theorem ofValue_exact (value : Text) :
    sweep value 0 none [] value = some (ofValue value) ∧
    (∀ k, k ∈ ofValue value ↔ IsRun value k) ∧
    (ofValue value).Pairwise (fun k l => k.stop < l.start) ∧
    (∀ k ∈ ofValue value, k.start < k.stop ∧ k.stop ≤ size value ∧ isBoundary k.start value = true ∧
      isBoundary k.stop value = true ∧ slice? k.start (k.stop - k.start) value = some k.text) ∧
    (∀ a c b, value = a ++ c :: b → isDelimiter c = false →
      ∃! k, k ∈ ofValue value ∧ k.start ≤ size a ∧ size a + c.utf8Size ≤ k.stop) ∧
    ∀ r p f (s : Span), Rule.ChecksTokens r p f → (r.validate value s).errors =
      ((ofValue value).filter fun k => !p k.text).map fun k =>
        .error ⟨s.start + k.start, k.stop - k.start, s.role⟩ f := by
  refine ⟨sweep_eq value, fun k => mem_ofValue_iff, pairwise_ofValue value, fun k hk => (mem_ofValue_iff.1 hk).bounds,
    ?_, fun r p f s h => h.errors_validate value s⟩
  rintro a c b rfl hc
  exact existsUnique_mem_ofValue hc a b

/-- A character of two bytes in front of a run of mixed delimiters. -/
theorem ofValue_exact_mixed_delimiters :
    let value := "é,\t 1.1.1.1 ,nope".toList
    ofValue value = [⟨0, "é".toList⟩, ⟨5, "1.1.1.1".toList⟩, ⟨14, "nope".toList⟩] ∧
    (Rule.validate .dnsList value ⟨100, 18, .value⟩).errors =
      [.error ⟨100, 2, .value⟩ .invalidDnsAddress, .error ⟨114, 4, .value⟩ .invalidDnsAddress] := by
  intro value
  obtain ⟨-, -, -, -, -, herrors⟩ := ofValue_exact value
  refine ⟨by decide +kernel, ?_⟩
  rw [herrors _ _ _ _ .dnsList]
  decide +kernel

end Token

end TunnelConf
