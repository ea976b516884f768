import TunnelConf.Diff.Block

/-!
# Edit scripts

A script turns one list into another by keeping, deleting and inserting elements, one at a time.
`Script.between` is a shortest one, with every insertion as late as it can stand. Main statements:
the script starts from the first list (`old_between`) and leads to the second (`new_between`).
-/

namespace TunnelConf

/-- One element kept, deleted or inserted, the latter two with a place in the other list: where the
deleted element would stand in the second list, and the inserted one in the first. -/
inductive Change (α : Type)
  | keep (a : α)
  | delete (a : α) (place : Nat)
  | insert (a : α) (place : Nat)
deriving DecidableEq, Repr

abbrev Script (α : Type) := List (Change α)

namespace Change

variable {α : Type}

def old? : Change α → Option α
  | .keep a => some a
  | .delete a _ => some a
  | .insert _ _ => none

def new? : Change α → Option α
  | .keep a => some a
  | .delete _ _ => none
  | .insert a _ => some a

def isKeep : Change α → Bool
  | .keep _ => true
  | _ => false

def isDelete : Change α → Bool
  | .delete _ _ => true
  | _ => false

def isInsert : Change α → Bool
  | .insert _ _ => true
  | _ => false

end Change

namespace Script

variable {α : Type}

/-- The list that a script starts from. -/
def old (s : Script α) : List α := s.filterMap Change.old?

/-- The list that a script leads to. -/
def new (s : Script α) : List α := s.filterMap Change.new?

@[simp] theorem old_nil : old ([] : Script α) = [] := rfl

@[simp] theorem new_nil : new ([] : Script α) = [] := rfl

@[simp] theorem old_keep_cons (a : α) (s : Script α) : old (.keep a :: s) = a :: old s := rfl

@[simp] theorem new_keep_cons (a : α) (s : Script α) : new (.keep a :: s) = a :: new s := rfl

@[simp] theorem old_delete_cons (a : α) (p : Nat) (s : Script α) :
    old (.delete a p :: s) = a :: old s := rfl

@[simp] theorem new_delete_cons (a : α) (p : Nat) (s : Script α) :
    new (.delete a p :: s) = new s := rfl

@[simp] theorem old_insert_cons (a : α) (p : Nat) (s : Script α) :
    old (.insert a p :: s) = old s := rfl

@[simp] theorem new_insert_cons (a : α) (p : Nat) (s : Script α) :
    new (.insert a p :: s) = a :: new s := rfl

@[simp] theorem old_append (s t : Script α) : old (s ++ t) = old s ++ old t := by simp [old]

@[simp] theorem new_append (s t : Script α) : new (s ++ t) = new s ++ new t := by simp [new]

@[simp] theorem old_map_delete (as : List α) (p : Nat) :
    old (as.map fun a => .delete a p) = as := by
  induction as <;> simp_all

@[simp] theorem new_map_delete (as : List α) (p : Nat) :
    new (as.map fun a => .delete a p) = [] := by
  induction as <;> simp_all

@[simp] theorem old_map_insert (as : List α) (p : Nat) :
    old (as.map fun a => .insert a p) = [] := by
  induction as <;> simp_all

@[simp] theorem new_map_insert (as : List α) (p : Nat) :
    new (as.map fun a => .insert a p) = as := by
  induction as <;> simp_all

/-- The changes of a division that goes on from place `i` of the first list and place `j` of the
second. A deletion and the insertion right behind it are a replacement, which stands where the lists
have come; any other block keeps the place that it has noted. -/
def ofBlocks (i j : Nat) : List (Block α) → Script α
  | [] => []
  | .keep a :: s => .keep a :: ofBlocks (i + 1) (j + 1) s
  | .delete gone _ :: .insert come _ :: s =>
    gone.map (fun a => .delete a j) ++ come.map (fun a => .insert a (i + gone.length)) ++
      ofBlocks (i + gone.length) (j + come.length) s
  | .delete gone p :: s => gone.map (fun a => .delete a p) ++ ofBlocks (i + gone.length) j s
  | .insert come p :: s => come.map (fun a => .insert a p) ++ ofBlocks i (j + come.length) s

theorem old_ofBlocks (i j : Nat) (s : List (Block α)) : old (ofBlocks i j s) = Block.old s := by
  fun_induction ofBlocks i j s <;> simp_all [Block.old]

theorem new_ofBlocks (i j : Nat) (s : List (Block α)) : new (ofBlocks i j s) = Block.new s := by
  fun_induction ofBlocks i j s <;> simp_all [Block.new]

variable [DecidableEq α]

def between (os ns : List α) : Script α := ofBlocks 0 0 (Block.divide os ns)

/-- The script between two lists starts from the first. -/
theorem old_between (os ns : List α) : old (between os ns) = os := by
  rw [between, old_ofBlocks, Block.old_divide]

/-- The script between two lists leads to the second. -/
theorem new_between (os ns : List α) : new (between os ns) = ns := by
  rw [between, new_ofBlocks, Block.new_divide]

end Script

end TunnelConf
