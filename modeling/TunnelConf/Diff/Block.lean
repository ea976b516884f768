import TunnelConf.Diff.Grid

/-!
# Blocks of changes

Two lists fall into elements that both keep, blocks of the first list alone and blocks of the second
list alone. `Block.divide` finds a shortest such division, gathers the deletions of each run of
changes behind its insertions, and moves each insertion as far up and then as far down as the same
lists come out. Main statements: every step leaves both lists as they are, so the division is one of
the two lists given (`old_divide`, `new_divide`).
-/

namespace TunnelConf

/-- A kept element, or the elements of one list alone with a place in the other list. The place is
noted when the block is found, and only the block's own moves along kept elements change it. -/
inductive Block (α : Type)
  | keep (a : α)
  | delete (items : List α) (place : Nat)
  | insert (items : List α) (place : Nat)
deriving DecidableEq, Repr

namespace Block

variable {α : Type}

def isInsert : Block α → Bool
  | .insert _ _ => true
  | _ => false

/-- The list that a division starts from. -/
def old : List (Block α) → List α
  | [] => []
  | .keep a :: s => a :: old s
  | .delete items _ :: s => items ++ old s
  | .insert _ _ :: s => old s

/-- The list that a division leads to. -/
def new : List (Block α) → List α
  | [] => []
  | .keep a :: s => a :: new s
  | .delete _ _ :: s => new s
  | .insert items _ :: s => items ++ new s

@[simp] theorem old_append (s t : List (Block α)) : old (s ++ t) = old s ++ old t := by
  fun_induction old s <;> simp_all [old]

@[simp] theorem new_append (s t : List (Block α)) : new (s ++ t) = new s ++ new t := by
  fun_induction new s <;> simp_all [new]

@[simp] theorem old_map_keep (as : List α) : old (as.map .keep) = as := by
  induction as <;> simp_all [old]

@[simp] theorem new_map_keep (as : List α) : new (as.map .keep) = as := by
  induction as <;> simp_all [new]

/-! ### Finding a division -/

/-- All of the first list goes and all of the second one comes. -/
def replacement (i j : Nat) (os ns : List α) : List (Block α) :=
  (if os.isEmpty then [] else [.delete os j]) ++ if ns.isEmpty then [] else [.insert ns i]

theorem old_replacement (i j : Nat) (os ns : List α) : old (replacement i j os ns) = os := by
  cases os <;> cases ns <;> simp [replacement, old]

theorem new_replacement (i j : Nat) (os ns : List α) : new (replacement i j os ns) = ns := by
  cases os <;> cases ns <;> simp [replacement, new]

section Find

variable [DecidableEq α]

/-- The common first elements of two lists, and the rests. -/
def common : List α → List α → List α × List α × List α
  | a :: as, b :: bs =>
    if a = b then
      let (front, as, bs) := common as bs
      (a :: front, as, bs)
    else ([], a :: as, b :: bs)
  | as, bs => ([], as, bs)

theorem append_common (as bs : List α) :
    (common as bs).1 ++ (common as bs).2.1 = as ∧ (common as bs).1 ++ (common as bs).2.2 = bs := by
  fun_induction common as bs <;> simp_all

/-- The common last elements stand, in reverse, before the rests. -/
theorem reverse_append_common (as bs : List α) :
    (common as.reverse bs.reverse).2.1.reverse ++ (common as.reverse bs.reverse).1.reverse = as ∧
      (common as.reverse bs.reverse).2.2.reverse ++ (common as.reverse bs.reverse).1.reverse =
        bs := by
  have h := append_common as.reverse bs.reverse
  exact ⟨by rw [← List.reverse_append, h.1, List.reverse_reverse],
    by rw [← List.reverse_append, h.2, List.reverse_reverse]⟩

/-- Keeps what two lists share at their ends; what is between is divided by `inner`, which is also
told how many elements stand before it. -/
def framed (inner : Nat → List α → List α → List (Block α)) (os ns : List α) : List (Block α) :=
  let (front, os, ns) := common os ns
  let (back, os, ns) := common os.reverse ns.reverse
  front.map .keep ++ inner front.length os.reverse ns.reverse ++ back.reverse.map .keep

theorem old_framed {inner : Nat → List α → List α → List (Block α)}
    (h : ∀ i os ns, old (inner i os ns) = os) (os ns : List α) :
    old (framed inner os ns) = os := by
  simp only [framed, old_append, old_map_keep, h, List.append_assoc]
  rw [(reverse_append_common _ _).1, (append_common os ns).1]

theorem new_framed {inner : Nat → List α → List α → List (Block α)}
    (h : ∀ i os ns, new (inner i os ns) = ns) (os ns : List α) :
    new (framed inner os ns) = ns := by
  simp only [framed, new_append, new_map_keep, h, List.append_assoc]
  rw [(reverse_append_common _ _).2, (append_common os ns).2]

/-- A shortest division of two lists that start at places `i` and `j`. What they share at their ends
is kept, and what is between falls apart at its middle point. A fuel of both lengths suffices, for a
middle point leaves less on either side. -/
def find : Nat → Nat → Nat → List α → List α → List (Block α)
  | 0, i, j, os, ns => replacement i j os ns
  | fuel + 1, i, j, os, ns =>
    framed (fun shared os ns =>
      let i := i + shared
      let j := j + shared
      match if os.isEmpty || ns.isEmpty then none else Grid.middle? os ns with
      | some (x, y) =>
        find fuel i j (os.take x) (ns.take y) ++ find fuel (i + x) (j + y) (os.drop x) (ns.drop y)
      | none => replacement i j os ns) os ns

theorem old_find (fuel i j : Nat) (os ns : List α) : old (find fuel i j os ns) = os := by
  induction fuel generalizing i j os ns with
  | zero => exact old_replacement i j os ns
  | succ fuel ih =>
    refine old_framed (fun shared os ns => ?_) os ns
    split
    · simp [ih]
    · exact old_replacement _ _ os ns

theorem new_find (fuel i j : Nat) (os ns : List α) : new (find fuel i j os ns) = ns := by
  induction fuel generalizing i j os ns with
  | zero => exact new_replacement i j os ns
  | succ fuel ih =>
    refine new_framed (fun shared os ns => ?_) os ns
    split
    · simp [ih]
    · exact new_replacement _ _ os ns

end Find

/-! ### Gathering deletions -/

/-- Moves a deletion behind the insertions that follow it, into the deletion that follows these. -/
def sink (items : List α) (place : Nat) : List (Block α) → List (Block α)
  | .insert is p :: s => .insert is p :: sink items place s
  | .delete is _ :: s => .delete (items ++ is) place :: s
  | s => .delete items place :: s

/-- One deletion in each run of changes, behind the insertions and at the place of the first. -/
def gather : List (Block α) → List (Block α)
  | .delete items place :: s => sink items place (gather s)
  | b :: s => b :: gather s
  | [] => []

theorem old_sink (items : List α) (place : Nat) (s : List (Block α)) :
    old (sink items place s) = items ++ old s := by
  fun_induction sink items place s <;> simp_all [old]

theorem new_sink (items : List α) (place : Nat) (s : List (Block α)) :
    new (sink items place s) = new s := by
  fun_induction sink items place s <;> simp_all [new]

theorem old_gather (s : List (Block α)) : old (gather s) = old s := by
  fun_induction gather s with
  | case1 items place s ih => simp [old_sink, old, ih]
  | case2 b s _ ih => cases b <;> simp_all [old]
  | case3 => rfl

theorem new_gather (s : List (Block α)) : new (gather s) = new s := by
  fun_induction gather s with
  | case1 items place s ih => simp [new_sink, new, ih]
  | case2 b s _ ih => cases b <;> simp_all [new]
  | case3 => rfl

/-! ### Settling insertions -/

/-- An insertion on the move: the blocks before it, the nearest first, and those after it. -/
structure Floating (α : Type) where
  before : List (Block α)
  items : List α
  place : Nat
  after : List (Block α)

namespace Floating

/-- The division with the insertion where it is. -/
def toList (f : Floating α) : List (Block α) :=
  f.before.reverse ++ .insert f.items f.place :: f.after

end Floating

variable [DecidableEq α]

/-- Moves an insertion up: over a kept element that it ends with, past a deletion, and onto an
insertion. -/
def raise (items : List α) (place : Nat) (after : List (Block α)) :
    List (Block α) → Floating α
  | .keep a :: before =>
    if items.getLast? = some a then
      raise (a :: items.dropLast) (place - 1) (.keep a :: after) before
    else ⟨.keep a :: before, items, place, after⟩
  | .delete is p :: before => raise items place (.delete is p :: after) before
  | .insert is p :: before => raise (is ++ items) p after before
  | [] => ⟨[], items, place, after⟩

/-- Moves an insertion down: over a kept element that it starts with, past a deletion, and onto an
insertion. -/
def lower (before : List (Block α)) (items : List α) (place : Nat) :
    List (Block α) → Floating α
  | .keep a :: after =>
    if items.head? = some a then lower (.keep a :: before) (items.tail ++ [a]) (place + 1) after
    else ⟨before, items, place, .keep a :: after⟩
  | .delete is p :: after => lower (.delete is p :: before) items place after
  | .insert is _ :: after => lower before (items ++ is) place after
  | [] => ⟨before, items, place, []⟩

theorem countP_after_raise (items : List α) (place : Nat) (after before : List (Block α)) :
    (raise items place after before).after.countP isInsert = after.countP isInsert := by
  fun_induction raise items place after before with
  | case1 items place after a before h ih => simpa [isInsert] using ih
  | case2 => rfl
  | case3 items place after is p before ih => simpa [isInsert] using ih
  | case4 items place after is p before ih => exact ih
  | case5 => rfl

theorem countP_after_lower (before : List (Block α)) (items : List α) (place : Nat)
    (after : List (Block α)) :
    (lower before items place after).after.countP isInsert ≤ after.countP isInsert := by
  fun_induction lower before items place after with
  | case1 before items place a after h ih => simpa [isInsert] using ih
  | case2 => exact Nat.le_refl _
  | case3 before items place is p after ih => simpa [isInsert] using ih
  | case4 before items place is p after ih =>
    exact Nat.le_trans ih (List.Sublist.countP_le (List.sublist_cons_self _ _))
  | case5 => exact Nat.le_refl _

/-- Moves an insertion up and then down, as far as it goes. -/
def float (before : List (Block α)) (items : List α) (place : Nat) (after : List (Block α)) :
    Floating α :=
  let raised := raise items place after before
  lower raised.before raised.items raised.place raised.after

theorem countP_after_float (before : List (Block α)) (items : List α) (place : Nat)
    (after : List (Block α)) :
    (float before items place after).after.countP isInsert ≤ after.countP isInsert :=
  Nat.le_trans (countP_after_lower _ _ _ _)
    (Nat.le_of_eq (countP_after_raise items place after before))

/-- Moves each insertion up and then down, the first one first. -/
def settle (before : List (Block α)) : List (Block α) → List (Block α)
  | [] => before.reverse
  | .insert items place :: after =>
    let moved := float before items place after
    settle (.insert moved.items moved.place :: moved.before) moved.after
  | .keep a :: after => settle (.keep a :: before) after
  | .delete items place :: after => settle (.delete items place :: before) after
termination_by after => (after.countP isInsert, after.length)
decreasing_by
  · refine Prod.Lex.left _ _ ?_
    have h := countP_after_float before items place after
    simp only [List.countP_cons, isInsert]
    exact Nat.lt_succ_of_le h
  · rw [List.countP_cons_of_neg (by simp [isInsert])]
    exact Prod.Lex.right _ (Nat.lt_succ_self _)
  · rw [List.countP_cons_of_neg (by simp [isInsert])]
    exact Prod.Lex.right _ (Nat.lt_succ_self _)

theorem old_raise (items : List α) (place : Nat) (after before : List (Block α)) :
    old (raise items place after before).toList = old before.reverse ++ old after := by
  fun_induction raise items place after before <;> simp_all [Floating.toList, old]

theorem old_lower (before : List (Block α)) (items : List α) (place : Nat)
    (after : List (Block α)) :
    old (lower before items place after).toList = old before.reverse ++ old after := by
  fun_induction lower before items place after <;> simp_all [Floating.toList, old]

theorem new_raise (items : List α) (place : Nat) (after before : List (Block α)) :
    new (raise items place after before).toList = new before.reverse ++ items ++ new after := by
  fun_induction raise items place after before with
  | case1 items place after a before h ih =>
    obtain ⟨front, rfl⟩ := List.getLast?_eq_some_iff.1 h
    rw [ih]
    simp [new]
  | _ => simp_all [Floating.toList, new]

theorem new_lower (before : List (Block α)) (items : List α) (place : Nat)
    (after : List (Block α)) :
    new (lower before items place after).toList = new before.reverse ++ items ++ new after := by
  fun_induction lower before items place after with
  | case1 before items place a after h ih =>
    obtain ⟨rest, rfl⟩ := List.head?_eq_some_iff.1 h
    rw [ih]
    simp [new]
  | _ => simp_all [Floating.toList, new]

theorem old_float (before : List (Block α)) (items : List α) (place : Nat)
    (after : List (Block α)) :
    old (float before items place after).toList = old before.reverse ++ old after := by
  rw [float, old_lower, ← old_raise items place after before]
  simp [Floating.toList, old]

theorem new_float (before : List (Block α)) (items : List α) (place : Nat)
    (after : List (Block α)) :
    new (float before items place after).toList = new before.reverse ++ items ++ new after := by
  rw [float, new_lower, ← new_raise items place after before]
  simp [Floating.toList, new]

theorem old_settle (before after : List (Block α)) :
    old (settle before after) = old before.reverse ++ old after := by
  fun_induction settle before after with
  | case1 before => simp [old]
  | case2 before items place after moved ih =>
    have h := old_float before items place after
    simp only [Floating.toList, old_append, old] at h
    simp [ih, old, ← h, moved]
  | _ => simp_all [old]

theorem new_settle (before after : List (Block α)) :
    new (settle before after) = new before.reverse ++ new after := by
  fun_induction settle before after with
  | case1 before => simp [new]
  | case2 before items place after moved ih =>
    have h := new_float before items place after
    simp only [Floating.toList, new_append, new] at h
    simp [ih, new, moved, ← List.append_assoc, ← h]
  | _ => simp_all [new]

/-! ### The division of two lists -/

def divide (os ns : List α) : List (Block α) :=
  settle [] (gather (find (os.length + ns.length) 0 0 os ns))

/-- The division of two lists starts from the first. -/
theorem old_divide (os ns : List α) : old (divide os ns) = os := by
  simp [divide, old_settle, old_gather, old_find, old]

/-- The division of two lists leads to the second. -/
theorem new_divide (os ns : List α) : new (divide os ns) = ns := by
  simp [divide, new_settle, new_gather, new_find, new]

end Block

end TunnelConf
