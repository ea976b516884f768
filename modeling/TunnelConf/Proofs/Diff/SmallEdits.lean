import TunnelConf.Proofs.Diff.Hunks

/-!
# Scripts of small edits

The scripts between lists that differ in one element, or in what stands at the end. An element in the place of
another one goes down over equal ones behind it, and the places that were noted stay as they were found
(`between_shifted`); if no equal one is behind, the two stand side by side at the right places (`between_replaced`),
and so they do at the end of a list (`between_extended`, `between_appended`).
-/

namespace TunnelConf

variable {α : Type} [DecidableEq α] {a b c : α}

/-! ### Middle points -/

namespace Grid

/-- Where two lists share nothing, a search goes straight. -/
theorem run_eq_zero {os ns : Array α} (h : ∀ a ∈ os, a ∉ ns) (x y : Nat) : run os ns x y = 0 := by
  rw [run]
  split
  · next hx =>
    rw [if_neg]
    intro heq
    exact h os[x] (Array.getElem_mem hx) (Array.mem_of_getElem? heq.symm)
  · rfl

/-- One more round between lists that share nothing. -/
def straight (f : Front) : Front := (Array.range (f.size + 1)).map fun i => ⟨enter f i, enter f i⟩

theorem advance_of_apart {os ns : Array α} (h : ∀ a ∈ os, a ∉ ns) (f : Front) : advance os ns f = straight f := by
  unfold advance straight
  simp only [run_eq_zero h, Nat.add_zero]

theorem straight_zero : straight #[] = #[⟨0, 0⟩] := by decide +kernel

theorem straight_one : straight #[⟨0, 0⟩] = #[⟨0, 0⟩, ⟨1, 1⟩] := by decide +kernel

theorem straight_two : straight #[⟨0, 0⟩, ⟨1, 1⟩] = #[⟨0, 0⟩, ⟨1, 1⟩, ⟨2, 2⟩] := by decide +kernel

theorem middle?_one_one (h : a ≠ b) : middle? [a] [b] = some (0, 1) := by
  have hf : ∀ f, advance #[a] #[b] f = straight f := advance_of_apart (by simpa using h)
  have hfirst : meeting? 1 1 #[⟨0, 0⟩] #[⟨0, 0⟩] = none := by decide +kernel
  have hsecond : meeting? 1 1 #[⟨0, 0⟩, ⟨1, 1⟩] #[⟨0, 0⟩, ⟨1, 1⟩] = some (1, ⟨1, 1⟩) := by decide +kernel
  simp [middle?, search, hf, straight_zero, straight_one, hfirst, hsecond, across]

theorem middle?_one_two (h : a ≠ b) (h' : a ≠ c) : middle? [a] [b, c] = some (1, 1) := by
  have hf : ∀ f, advance #[a] #[b, c] f = straight f := advance_of_apart (by simp [h, h'])
  have hb : ∀ f, advance #[a] #[c, b] f = straight f := advance_of_apart (by simp [h, h'])
  have hfirst : meeting? 1 2 #[⟨0, 0⟩] #[] = none := by decide +kernel
  have hsecond : meeting? 1 2 #[⟨0, 0⟩, ⟨1, 1⟩] #[⟨0, 0⟩] = none := by decide +kernel
  have hthird : meeting? 1 2 #[⟨0, 0⟩, ⟨1, 1⟩, ⟨2, 2⟩] #[⟨0, 0⟩, ⟨1, 1⟩] = some (1, ⟨1, 1⟩) := by decide +kernel
  simp [middle?, search, hf, hb, straight_zero, straight_one, straight_two, hfirst, hsecond, hthird, across]

end Grid

/-! ### Divisions -/

namespace Block

variable {i j n place fuel : Nat} {as bs P S : List α} {before after : List (Block α)}

theorem common_append (front as bs : List α) :
    common (front ++ as) (front ++ bs) = (front ++ (common as bs).1, (common as bs).2) := by
  induction front with
  | nil => rfl
  | cons x front ih => simp [common, ih]

theorem common_eq_nil (h : ∀ a ∈ as.head?, ∀ b ∈ bs.head?, a ≠ b) : common as bs = ([], as, bs) := by
  cases as with
  | nil => rfl
  | cons a as =>
    cases bs with
    | nil => rfl
    | cons b bs => rw [common, if_neg (h a rfl b rfl)]

/-- What two lists share at their ends is kept. -/
theorem framed_eq (inner : Nat → List α → List α → List (Block α)) (P : List α)
    (hfront : common (as ++ S) (bs ++ S) = ([], as ++ S, bs ++ S))
    (hback : common as.reverse bs.reverse = ([], as.reverse, bs.reverse)) :
    framed inner (P ++ (as ++ S)) (P ++ (bs ++ S)) =
      P.map .keep ++ inner P.length as bs ++ S.map .keep := by
  unfold framed
  rw [common_append, hfront]
  dsimp only
  rw [List.append_nil, List.reverse_append, List.reverse_append, common_append, hback]
  simp

theorem find_nil_one (b : α) : find fuel i j [] [b] = [.insert [b] i] := by
  cases fuel with
  | zero => rfl
  | succ fuel => simp [find, framed, common, replacement]

theorem find_one_nil (a : α) : find fuel i j [a] [] = [.delete [a] j] := by
  cases fuel with
  | zero => rfl
  | succ fuel => simp [find, framed, common, replacement]

/-- The element that comes is found in front of the one that goes. -/
theorem find_replaced (h : a ≠ b) (P S : List α) : find (fuel + 1) i j (P ++ a :: S) (P ++ b :: S) =
    P.map .keep ++ [.insert [b] (i + P.length), .delete [a] (j + P.length + 1)] ++ S.map .keep := by
  have hfront : common ([a] ++ S) ([b] ++ S) = ([], [a] ++ S, [b] ++ S) := common_eq_nil (by simpa using h)
  have hback : common [a].reverse [b].reverse = ([], [a].reverse, [b].reverse) := common_eq_nil (by simpa using h)
  have hframed := fun inner => framed_eq inner P hfront hback
  rw [find]
  simp only [List.singleton_append] at hframed
  rw [hframed]
  simp [Grid.middle?_one_one h, find_nil_one, find_one_nil]

/-- So it is at the end of the lists, where one more comes behind. -/
theorem find_extended (h : a ≠ b) (h' : a ≠ c) (P : List α) : find (fuel + 2) i j (P ++ [a]) (P ++ [b, c]) =
    P.map .keep ++ [.insert [b] (i + P.length), .delete [a] (j + P.length + 1), .insert [c] (i + P.length + 1)] := by
  have hfront : common ([a] ++ []) ([b, c] ++ []) = ([], [a] ++ [], [b, c] ++ []) := common_eq_nil (by simpa using h)
  have hback : common [a].reverse [b, c].reverse = ([], [a].reverse, [b, c].reverse) :=
    common_eq_nil (by simpa using h')
  have hframed := fun inner => framed_eq inner P hfront hback
  simp only [List.append_nil, List.map_nil] at hframed
  rw [find, hframed]
  have hinner : find (fuel + 1) (i + P.length) (j + P.length) [a] [b] =
      [.insert [b] (i + P.length), .delete [a] (j + P.length + 1)] := by
    simpa using find_replaced h [] []
  simp [Grid.middle?_one_two h h', find_nil_one, hinner]

theorem find_appended (b c : α) (P : List α) : find (fuel + 1) i j P (P ++ [b, c]) =
    P.map .keep ++ [.insert [b, c] (i + P.length)] := by
  have hfront : common ([] ++ []) ([b, c] ++ []) = ([], [] ++ [], [b, c] ++ []) := rfl
  have hframed := fun inner => framed_eq inner P hfront (common_eq_nil (by simp))
  simp only [List.append_nil, List.map_nil] at hframed
  rw [find, hframed]
  simp [replacement]

/-! ### Gathering and settling -/

omit [DecidableEq α] in
theorem gather_append (P : List α) (s : List (Block α)) : gather (P.map .keep ++ s) = P.map .keep ++ gather s := by
  induction P with
  | nil => rfl
  | cons a P ih => rw [List.map_cons, List.cons_append, gather, ih, List.cons_append]; simp

omit [DecidableEq α] in
theorem gather_insert (items : List α) (place : Nat) (s : List (Block α)) :
    gather (.insert items place :: s) = .insert items place :: gather s := rfl

omit [DecidableEq α] in
theorem gather_keeps (S : List α) : gather (S.map .keep) = S.map .keep := by
  simpa [gather] using gather_append S []

omit [DecidableEq α] in
theorem sink_keeps (items : List α) (place : Nat) (S : List α) :
    sink items place (S.map .keep) = .delete items place :: S.map .keep := by
  cases S <;> rfl

theorem settle_append (P : List α) (before s : List (Block α)) :
    settle before (P.map .keep ++ s) = settle (P.reverse.map .keep ++ before) s := by
  induction P generalizing before with
  | nil => rfl
  | cons a P ih => rw [List.map_cons, List.cons_append, settle, ih]; simp

theorem settle_keeps (before : List (Block α)) (S : List α) :
    settle before (S.map .keep) = before.reverse ++ S.map .keep := by
  have h := settle_append S before []
  rw [List.append_nil] at h
  rw [h, settle]
  simp

/-- An element that goes up over kept ones comes down over them again. -/
theorem float_keeps (before : List α) (h : before.length ≤ place) (after : List (Block α)) :
    float (before.map .keep) [b] place after = lower (before.map .keep) [b] place after := by
  induction before generalizing place after with
  | nil => rfl
  | cons a before ih =>
    rw [List.length_cons] at h
    by_cases hab : b = a
    · subst hab
      have hraise : raise [b] place after (.keep b :: before.map .keep) =
          raise [b] (place - 1) (.keep b :: after) (before.map .keep) := if_pos rfl
      have hlower : lower (before.map .keep) [b] (place - 1) (.keep b :: after) =
          lower (.keep b :: before.map .keep) [b] (place - 1 + 1) after := if_pos rfl
      have ih := ih (by omega : before.length ≤ place - 1) (.keep b :: after)
      rw [float, hlower, Nat.sub_add_cancel (by omega)] at ih
      rw [List.map_cons, float, hraise]
      exact ih
    · have hraise : raise [b] place after (.keep a :: before.map .keep) =
          ⟨.keep a :: before.map .keep, [b], place, after⟩ := if_neg (by simpa using hab)
      rw [List.map_cons, float, hraise]

theorem lower_replicate (k : Nat) (before after : List (Block α)) :
    lower before [b] place ((List.replicate k b).map .keep ++ after) =
      lower ((List.replicate k b).map .keep ++ before) [b] (place + k) after := by
  induction k generalizing before place with
  | zero => rfl
  | succ k ih =>
    have hlower : lower before [b] place (.keep b :: ((List.replicate k b).map .keep ++ after)) =
        lower (.keep b :: before) [b] (place + 1) ((List.replicate k b).map .keep ++ after) := if_pos rfl
    have hmoved : (List.replicate (k + 1) b).map .keep ++ before =
        (List.replicate k b).map .keep ++ .keep b :: before := by
      rw [List.replicate_succ', List.map_append, List.append_assoc]
      rfl
    rw [hmoved, List.replicate_succ, List.map_cons, List.cons_append, hlower, ih, Nat.add_assoc, Nat.add_comm 1]

theorem lower_keeps (h : S.head? ≠ some b) (before : List (Block α)) :
    lower before [b] place (S.map .keep) = ⟨before, [b], place, S.map .keep⟩ := by
  cases S with
  | nil => rfl
  | cons a S => exact if_neg (by simpa using fun hab => h (congrArg some hab.symm))

/-! ### The divisions of small edits -/

/-- The element that comes goes down behind the one that goes, and over as many equal ones as there are. -/
theorem divide_replaced (h : a ≠ b) (P : List α) (k : Nat) (hS : S.head? ≠ some b) :
    divide (P ++ a :: (List.replicate k b ++ S)) (P ++ b :: (List.replicate k b ++ S)) =
      P.map .keep ++ .delete [a] (P.length + 1) ::
        ((List.replicate k b).map .keep ++ .insert [b] (P.length + k) :: S.map .keep) := by
  have hfuel : (P ++ a :: (List.replicate k b ++ S)).length + (P ++ b :: (List.replicate k b ++ S)).length =
      (2 * P.length + 2 * k + 2 * S.length + 1) + 1 := by
    simp only [List.length_append, List.length_cons, List.length_replicate]
    omega
  rw [divide, hfuel, find_replaced h, List.append_assoc, gather_append, List.cons_append, List.cons_append,
    List.nil_append, gather_insert, gather, gather_keeps, sink_keeps, settle_append, settle, List.append_nil,
    float_keeps _ (by simp), lower, List.map_append, lower_replicate, lower_keeps hS]
  dsimp only
  rw [settle_keeps]
  simp

theorem divide_extended (h : a ≠ b) (h' : a ≠ c) (P : List α) : divide (P ++ [a]) (P ++ [b, c]) =
    P.map .keep ++ [.delete [a] (P.length + 1), .insert [b, c] P.length] := by
  have hfuel : (P ++ [a]).length + (P ++ [b, c]).length = (2 * P.length + 1) + 2 := by
    simp only [List.length_append, List.length_cons, List.length_nil]
    omega
  have hlower : ∀ before : List (Block α), ∀ m n p : Nat,
      lower before [b] m [.insert [c] n, .delete [a] p] = ⟨.delete [a] p :: before, [b, c], m, []⟩ := fun _ _ _ _ => rfl
  rw [divide, hfuel, find_extended h h', gather_append, gather_insert, gather, gather_insert]
  show settle [] (P.map .keep ++ [.insert [b] _, .insert [c] _, .delete [a] _]) = _
  rw [settle_append, settle, List.append_nil, float_keeps _ (by simp), hlower]
  dsimp only
  rw [settle]
  simp

theorem divide_appended (h : P.getLast? ≠ some c) : divide P (P ++ [b, c]) =
    P.map .keep ++ [.insert [b, c] P.length] := by
  have hfuel : P.length + (P ++ [b, c]).length = (2 * P.length + 1) + 1 := by
    simp only [List.length_append, List.length_cons, List.length_nil]
    omega
  have hraise : raise [b, c] (0 + P.length) [] (P.reverse.map .keep) =
      ⟨P.reverse.map .keep, [b, c], 0 + P.length, []⟩ := by
    rcases List.eq_nil_or_concat' P with rfl | ⟨P, a, rfl⟩
    · rfl
    · rw [List.reverse_concat, List.map_cons]
      refine if_neg fun heq => h ?_
      rw [List.getLast?_concat, ← heq]
      rfl
  rw [divide, hfuel, find_appended, gather_append, settle_append, gather_insert, gather, settle, List.append_nil, float,
    hraise, lower]
  dsimp only
  rw [settle]
  simp

end Block

/-! ### The scripts of small edits -/

namespace Script

variable {P S : List α}

omit [DecidableEq α] in
theorem ofBlocks_append (i j : Nat) (P : List α) (s : List (Block α)) :
    ofBlocks i j (P.map .keep ++ s) = P.map .keep ++ ofBlocks (i + P.length) (j + P.length) s := by
  induction P generalizing i j with
  | nil => rfl
  | cons a P ih =>
    rw [List.map_cons, List.cons_append, ofBlocks, ih, List.length_cons, Nat.add_right_comm, Nat.add_right_comm j]
    rfl

omit [DecidableEq α] in
theorem ofBlocks_keeps (i j : Nat) (S : List α) : ofBlocks i j (S.map .keep) = S.map .keep := by
  simpa [ofBlocks] using ofBlocks_append i j S []

omit [DecidableEq α] in
/-- A deletion that an insertion follows is moved to where it stands. -/
theorem ofBlocks_replacement (a : α) (come : List α) (p q : Nat) (s : List (Block α)) (i j : Nat) :
    ofBlocks i j (.delete [a] p :: .insert come q :: s) =
      .delete a j :: (come.map fun b => .insert b (i + 1)) ++ ofBlocks (i + 1) (j + come.length) s := by
  rw [ofBlocks]
  rfl

/-- One element in the place of another. -/
theorem between_replaced (h : a ≠ b) (P : List α) (hS : S.head? ≠ some b) : between (P ++ a :: S) (P ++ b :: S) =
    P.map .keep ++ ([.delete a P.length, .insert b (P.length + 1)] ++ S.map .keep) := by
  have hdivide := Block.divide_replaced h P 0 hS
  simp only [List.replicate_zero, List.nil_append, List.map_nil] at hdivide
  rw [between, hdivide, ofBlocks_append, ofBlocks_replacement, ofBlocks_keeps]
  simp

/-- If equal elements are behind, the places are those at which the elements were found. -/
theorem between_shifted (h : a ≠ b) (P : List α) (k : Nat) (hS : S.head? ≠ some b) :
    between (P ++ a :: (List.replicate (k + 1) b ++ S)) (P ++ b :: (List.replicate (k + 1) b ++ S)) =
      P.map .keep ++ (.delete a (P.length + 1) ::
        ((List.replicate (k + 1) b).map .keep ++ .insert b (P.length + (k + 1)) :: S.map .keep)) := by
  have hdelete : ∀ i j p (s : List (Block α)), ofBlocks i j (.delete [a] p :: .keep b :: s) =
      .delete a p :: .keep b :: ofBlocks (i + 1 + 1) (j + 1) s := fun _ _ _ _ => rfl
  rw [between, Block.divide_replaced h P (k + 1) hS, ofBlocks_append, List.replicate_succ, List.map_cons, List.map_cons,
    List.cons_append, List.cons_append, hdelete, ofBlocks_append, ofBlocks, ofBlocks_keeps]
  rfl

theorem between_extended (h : a ≠ b) (h' : a ≠ c) (P : List α) : between (P ++ [a]) (P ++ [b, c]) =
    P.map .keep ++ [.delete a P.length, .insert b (P.length + 1), .insert c (P.length + 1)] := by
  rw [between, Block.divide_extended h h', ofBlocks_append, ofBlocks_replacement]
  simp [ofBlocks]

theorem between_appended (h : P.getLast? ≠ some c) : between P (P ++ [b, c]) =
    P.map .keep ++ [.insert b P.length, .insert c P.length] := by
  rw [between, Block.divide_appended h, ofBlocks_append]
  simp [ofBlocks]

/-! ### Where their ends stand -/

omit [DecidableEq α] in
theorem old_keeps (P : List α) : old (P.map .keep) = P ∧ new (P.map .keep) = P := by
  induction P with
  | nil => exact ⟨rfl, rfl⟩
  | cons a P ih => exact ⟨congrArg (a :: ·) ih.1, congrArg (a :: ·) ih.2⟩

omit [DecidableEq α] in
theorem countP_keeps (P : List α) :
    (P.map .keep).countP Change.isInsert = 0 ∧ (P.map .keep).countP Change.isDelete = 0 := by
  simp [List.countP_eq_zero, Change.isInsert, Change.isDelete]

/-- How many elements come and how many go. -/
def counts (s : Script α) : Nat × Nat := (s.countP Change.isInsert, s.countP Change.isDelete)

omit [DecidableEq α] in
theorem counts_framed (P S : List α) (s : Script α) :
    counts (P.map .keep ++ (s ++ S.map .keep) : Script α) = counts s := by
  simp only [counts, List.countP_append, (countP_keeps _).1, (countP_keeps _).2, Nat.zero_add, Nat.add_zero]

omit [DecidableEq α] in
/-- Only changes that nothing stands in front of, or nothing behind, have to be in place. -/
theorem endsOnPlace_iff (P S : List α) {s : Script α} (hs : s ≠ []) :
    EndsOnPlace (P.map .keep ++ (s ++ S.map .keep) : Script α) ↔ (P = [] → ∀ c ∈ s.head?, c.OnPlace 0 0) ∧
      (S = [] → ∀ c ∈ s.getLast?, c.OnPlace (P.length + (old s).length) (P.length + (new s).length)) := by
  have hne : s ++ S.map .keep ≠ [] := by simp [hs]
  unfold EndsOnPlace
  refine and_congr ?_ ?_
  · cases P with
    | nil =>
      rw [List.map_nil, List.nil_append, List.head?_append_of_ne_nil _ hs]
      simp
    | cons a P => simp [Change.OnPlace]
  · rw [List.getLast?_append_of_ne_nil _ hne, old_append, new_append, old_append, new_append, (old_keeps P).1,
      (old_keeps P).2, (old_keeps S).1, (old_keeps S).2]
    rcases List.eq_nil_or_concat' S with rfl | ⟨S, a, rfl⟩
    · simp
    · rw [List.map_append, ← List.append_assoc, List.map_singleton, List.getLast?_concat]
      simp [Change.OnPlace]

/-- An element that goes down to the next one, from the start of the lists or to their end, leaves a wrong place. -/
def Slides (os ns : List α) : Prop :=
  ∃ front gone come back, os = front ++ gone :: back ∧ ns = front ++ come :: back ∧ gone ≠ come ∧
    back.head? = some come ∧ (front = [] ∨ ∀ l ∈ back, l = come)

omit [DecidableEq α] in
theorem Slides.length_eq {os ns : List α} (h : Slides os ns) : os.length = ns.length := by
  obtain ⟨front, gone, come, back, rfl, rfl, -⟩ := h
  simp

theorem exists_replicate_append (b : α) (S : List α) :
    ∃ k S', S = List.replicate k b ++ S' ∧ S'.head? ≠ some b := by
  induction S with
  | nil => exact ⟨0, [], rfl, by simp⟩
  | cons a S ih =>
    by_cases hab : a = b
    · obtain ⟨k, S', rfl, hS⟩ := ih
      exact ⟨k + 1, S', by rw [hab]; rfl, hS⟩
    · exact ⟨0, a :: S, rfl, by simpa using hab⟩

omit [DecidableEq α] in
/-- Two lists differ in one element only in one way. -/
theorem slides_iff (h : a ≠ b) (P S : List α) :
    Slides (P ++ a :: S) (P ++ b :: S) ↔ S.head? = some b ∧ (P = [] ∨ ∀ l ∈ S, l = b) := by
  constructor
  · rintro ⟨front, gone, come, back, ho, hn, hne, hslides⟩
    obtain ⟨rfl, rfl, rfl⟩ : P = front ∧ b = come ∧ S = back := by
      clear hslides
      induction P generalizing front with
      | nil =>
        cases front with
        | nil => exact ⟨rfl, (List.cons.inj hn).1, (List.cons.inj hn).2⟩
        | cons x front => exact absurd ((List.cons.inj ho).1.trans (List.cons.inj hn).1.symm) h
      | cons x P ih =>
        cases front with
        | nil => exact absurd ((List.cons.inj ho).1.symm.trans (List.cons.inj hn).1) hne
        | cons y front =>
          obtain ⟨rfl, rfl, rfl⟩ := ih front (List.cons.inj ho).2 (List.cons.inj hn).2
          exact ⟨congrArg (· :: P) (List.cons.inj ho).1, rfl, rfl⟩
    exact hslides
  · rintro ⟨hhead, hslides⟩
    exact ⟨P, a, b, S, rfl, rfl, h, hhead, hslides⟩

/-- With no equal one behind it the new element stays in place. -/
theorem ends_replaced (h : a ≠ b) (P : List α) (hS : S.head? ≠ some b) :
    counts (between (P ++ a :: S) (P ++ b :: S)) = (1, 1) ∧ (between (P ++ a :: S) (P ++ b :: S)).EndsOnPlace := by
  rw [between_replaced h P hS, counts_framed, endsOnPlace_iff _ _ (by simp)]
  refine ⟨rfl, fun hP => ?_, fun _ => ?_⟩
  · simp [hP, Change.OnPlace]
  · simp [Change.OnPlace]

/-- With equal ones behind it the places that are noted are off by one, so neither change may be an end of the
script. -/
theorem ends_shifted (h : a ≠ b) (P : List α) (k : Nat) (hS : S.head? ≠ some b) :
    counts (between (P ++ a :: (List.replicate (k + 1) b ++ S)) (P ++ b :: (List.replicate (k + 1) b ++ S))) = (1, 1) ∧
      ((between (P ++ a :: (List.replicate (k + 1) b ++ S)) (P ++ b :: (List.replicate (k + 1) b ++ S))).EndsOnPlace ↔
        P ≠ [] ∧ S ≠ []) := by
  have hshape : between (P ++ a :: (List.replicate (k + 1) b ++ S)) (P ++ b :: (List.replicate (k + 1) b ++ S)) =
      P.map .keep ++ ((.delete a (P.length + 1) ::
        ((List.replicate (k + 1) b).map .keep ++ [.insert b (P.length + (k + 1))])) ++ S.map .keep) := by
    rw [between_shifted h P k hS]
    simp
  have hlast : ∀ c : Change α, (c :: ((List.replicate (k + 1) b).map .keep ++
      [.insert b (P.length + (k + 1))])).getLast? = some (.insert b (P.length + (k + 1))) := by
    intro c
    rw [← List.cons_append, List.getLast?_concat]
  have hold := (old_keeps (List.replicate (k + 1) b)).1
  rw [hshape, counts_framed, endsOnPlace_iff _ _ (by simp), hlast]
  constructor
  · simp only [counts, List.countP_cons, List.countP_append, (countP_keeps _).1, (countP_keeps _).2]
    rfl
  · simp only [List.head?_cons, Option.mem_def, Option.some.injEq, forall_eq', Change.OnPlace, old_delete_cons,
      old_append, hold, old_insert_cons, old_nil, List.append_nil, List.length_cons, List.length_replicate]
    constructor
    · rintro ⟨hP, hS⟩
      exact ⟨fun h => absurd (hP h) (by omega), fun h => absurd (hS h) (by omega)⟩
    · rintro ⟨hP, hS⟩
      exact ⟨fun h => absurd h hP, fun h => absurd h hS⟩

/-- One element in the place of another is one insertion and one deletion, in place unless it slides. -/
theorem between_one (h : a ≠ b) (P S : List α) :
    counts (between (P ++ a :: S) (P ++ b :: S)) = (1, 1) ∧
      ((between (P ++ a :: S) (P ++ b :: S)).EndsOnPlace ↔ ¬ Slides (P ++ a :: S) (P ++ b :: S)) := by
  rw [slides_iff h]
  -- the elements behind that are equal to the new one, as many as it slides over
  obtain ⟨k, S, rfl, hS⟩ := exists_replicate_append b S
  cases k with
  | zero =>
    rw [List.replicate_zero, List.nil_append]
    obtain ⟨hcounts, hends⟩ := ends_replaced h P hS
    exact ⟨hcounts, iff_of_true hends fun hslides => hS hslides.1⟩
  | succ k =>
    obtain ⟨hcounts, hends⟩ := ends_shifted h P k hS
    have hall : (∀ l ∈ List.replicate (k + 1) b ++ S, l = b) ↔ S = [] := by
      constructor
      · intro hall
        cases S with
        | nil => rfl
        | cons c S => exact absurd (congrArg some (hall c (List.mem_append_right _ List.mem_cons_self))) hS
      · rintro rfl l hl
        rw [List.append_nil] at hl
        exact List.eq_of_mem_replicate hl
    have hhead : (List.replicate (k + 1) b ++ S).head? = some b := rfl
    rw [hall, hhead, eq_self_iff_true, true_and, not_or]
    exact ⟨hcounts, hends⟩

/-- One element in the place of the last one and one behind it. -/
theorem between_two (h : a ≠ b) (h' : a ≠ c) (P : List α) :
    counts (between (P ++ [a]) (P ++ [b, c])) = (2, 1) ∧ (between (P ++ [a]) (P ++ [b, c])).EndsOnPlace := by
  have hshape : between (P ++ [a]) (P ++ [b, c]) = P.map .keep ++
      ([.delete a P.length, .insert b (P.length + 1), .insert c (P.length + 1)] ++ ([] : List α).map .keep) :=
    between_extended h h' P
  rw [hshape, counts_framed, endsOnPlace_iff _ _ (by simp)]
  refine ⟨rfl, fun hP => ?_, fun _ => ?_⟩
  · simp [hP, Change.OnPlace]
  · simp [Change.OnPlace]

/-- Two elements behind the last one. -/
theorem between_behind (h : P.getLast? ≠ some c) :
    counts (between P (P ++ [b, c])) = (2, 0) ∧ (between P (P ++ [b, c])).EndsOnPlace := by
  have hshape : between P (P ++ [b, c]) = P.map .keep ++
      ([.insert b P.length, .insert c P.length] ++ ([] : List α).map .keep) := between_appended h
  rw [hshape, counts_framed, endsOnPlace_iff _ _ (by simp)]
  refine ⟨rfl, fun hP => ?_, fun _ => ?_⟩
  · simp [hP, Change.OnPlace]
  · simp [Change.OnPlace]

end Script

end TunnelConf
