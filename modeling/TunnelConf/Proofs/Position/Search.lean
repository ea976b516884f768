import TunnelConf.Proofs.Position

/-!
# Looking a position up

The table of lines is sorted, so the line of an offset can be found by bisection. `Position.lookup?` does so and
then reads the start of the line from the table, which fails for a line that the table does not have. Main
statement: `Position.lookup?_eq`, it never fails, whatever the offset, and what it finds is the position.
-/

namespace TunnelConf

open Text

/-! ### Bisection -/

/-- What a search for a value in a table tells: the index at which the value stands, or the one at which it would
have to be put in. -/
inductive Found
  | present (i : Nat)
  | absent (i : Nat)
deriving DecidableEq, Repr

namespace Found

/-- How many entries are not above the value that was looked for. -/
def passed : Found → Nat
  | .present i => i + 1
  | .absent i => i

/-- Looks for `n` in a table from index `lo` up to index `hi`. -/
def bisect (table : Array Nat) (n lo hi : Nat) (hhi : hi ≤ table.size) : Found :=
  if h : lo < hi then
    let mid := lo + (hi - lo) / 2
    have : mid < table.size := by omega
    if table[mid] = n then .present mid
    else if table[mid] < n then bisect table n (mid + 1) hi hhi
    else bisect table n lo mid (by omega)
  else .absent lo
termination_by hi - lo

def ofTable (table : Array Nat) (n : Nat) : Found := bisect table n 0 table.size (Nat.le_refl _)

variable {table : Array Nat} {n : Nat}

/-- The entries up to index `i` are not above `n`, and those from there on are. -/
structure Divides (table : Array Nat) (n i : Nat) : Prop where
  le_size : i ≤ table.size
  below : ∀ j (h : j < table.size), j < i → table[j] ≤ n
  above : ∀ j (h : j < table.size), i ≤ j → n < table[j]

theorem lt_of_lt (hs : table.toList.Pairwise (· < ·)) {i j : Nat} (hj : j < table.size) (hij : i < j) :
    table[i] < table[j] := by
  have := List.pairwise_iff_getElem.1 hs i j (by simpa using Nat.lt_trans hij hj) (by simpa using hj) hij
  simpa using this

theorem le_of_le (hs : table.toList.Pairwise (· < ·)) {i j : Nat} (hj : j < table.size) (hij : i ≤ j) :
    table[i] ≤ table[j] := by
  rcases Nat.lt_or_eq_of_le hij with hij | rfl
  · exact Nat.le_of_lt (lt_of_lt hs hj hij)
  · exact Nat.le_refl _

/-- On the way all in front of the window is below the value and all behind it is above. -/
theorem divides_bisect (hs : table.toList.Pairwise (· < ·)) {lo hi : Nat} (hle : lo ≤ hi) (hhi : hi ≤ table.size)
    (hbelow : ∀ j (h : j < table.size), j < lo → table[j] ≤ n)
    (habove : ∀ j (h : j < table.size), hi ≤ j → n < table[j]) :
    Divides table n (bisect table n lo hi hhi).passed := by
  fun_induction bisect table n lo hi hhi with
  | case1 lo hi hhi h mid hmid heq =>
    refine ⟨hmid, fun j hj hlt => ?_, fun j hj hle => ?_⟩
    · exact heq ▸ le_of_le hs hmid (Nat.le_of_lt_succ hlt)
    · exact heq ▸ lt_of_lt hs hj hle
  | case2 lo hi hhi h mid hmid hne hlt ih =>
    refine ih (by omega) (fun j hj hjm => ?_) habove
    exact Nat.le_trans (le_of_le hs hmid (Nat.le_of_lt_succ hjm)) (Nat.le_of_lt hlt)
  | case3 lo hi hhi h mid hmid hne hnlt ih =>
    refine ih (by omega) hbelow fun j hj hjm => ?_
    exact Nat.lt_of_lt_of_le (by omega) (le_of_le hs hj hjm)
  | case4 lo hi hhi h =>
    obtain rfl : lo = hi := by omega
    exact ⟨hhi, hbelow, habove⟩

theorem divides_ofTable (hs : table.toList.Pairwise (· < ·)) (n : Nat) : Divides table n (ofTable table n).passed :=
  divides_bisect hs (Nat.zero_le _) (Nat.le_refl _) (fun _ _ h => absurd h (Nat.not_lt_zero _))
    fun _ h hle => absurd h (Nat.not_lt_of_le hle)

theorem Divides.filter_eq {i : Nat} (h : Divides table n i) : table.toList.filter (· ≤ n) = table.toList.take i := by
  have hfront : ∀ m ∈ table.toList.take i, m ≤ n := by
    intro m hm
    obtain ⟨j, hj, rfl⟩ := List.getElem_of_mem hm
    rw [List.length_take, Array.length_toList] at hj
    simpa using h.below j (by omega) (by omega)
  have hback : ∀ m ∈ table.toList.drop i, ¬ m ≤ n := by
    intro m hm
    obtain ⟨j, hj, rfl⟩ := List.getElem_of_mem hm
    rw [List.length_drop, Array.length_toList] at hj
    simpa using h.above (i + j) (by omega) (by omega)
  conv_lhs => rw [← List.take_append_drop i table.toList]
  rw [List.filter_append, List.filter_eq_self.2 (by simpa using hfront),
    List.filter_eq_nil_iff.2 (by simpa using hback), List.append_nil]

end Found

/-! ### The table of lines -/

namespace Position

variable {t : Text} {byte : Nat}

theorem pairwise_startsAfter (offset : Nat) (t : Text) : (startsAfter offset t).Pairwise (· < ·) := by
  induction t generalizing offset with
  | nil => exact .nil
  | cons c t ih =>
    rw [startsAfter]
    split
    · exact .cons (fun n hn => (bounds_of_mem_startsAfter hn).1) (ih _)
    · exact ih _

theorem pairwise_lineStarts (t : Text) : (lineStarts t).Pairwise (· < ·) :=
  .cons (fun _ hn => (bounds_of_mem_startsAfter hn).1) (pairwise_startsAfter 0 t)

theorem le_size_of_mem_lineStarts {n : Nat} (h : n ∈ lineStarts t) : n ≤ size t := by
  rcases List.mem_cons.1 h with rfl | h
  · exact Nat.zero_le _
  · have := bounds_of_mem_startsAfter h
    omega

/-- The position of an offset, looked up in the table of lines. -/
def lookup? (t : Text) (byte : Nat) : Option Position := do
  let table := (lineStarts t).toArray
  let line := (Found.ofTable table byte).passed
  let start ← if line = 0 then none else table[line - 1]?
  let stop := min byte (size t)
  let before := if start ≤ stop then slice? start (stop - start) t else none
  return ⟨line, before.elim 0 List.length + 1⟩

theorem one_le_line (t : Text) (byte : Nat) : 1 ≤ (ofOffset t byte).line := by
  have h : 0 ∈ (lineStarts t).filter (· ≤ byte) := List.mem_filter.2 ⟨List.mem_cons_self .., by simp⟩
  exact List.length_pos_of_mem h

theorem line_le_length (t : Text) (byte : Nat) : (ofOffset t byte).line ≤ (lineStarts t).length :=
  List.length_filter_le ..

/-- The search comes to the line of the offset, and the table has that line. -/
theorem lookup?_eq (t : Text) (byte : Nat) : lookup? t byte = some (ofOffset t byte) := by
  have hd : Found.Divides (lineStarts t).toArray byte _ :=
    Found.divides_ofTable (by simpa using pairwise_lineStarts t) byte
  set line := (Found.ofTable (lineStarts t).toArray byte).passed with hline
  have hle : line ≤ (lineStarts t).length := by simpa using hd.le_size
  have hpassed : (lineStarts t).filter (· ≤ byte) = (lineStarts t).take line := by simpa using hd.filter_eq
  have hcount : (ofOffset t byte).line = line := by
    show ((lineStarts t).filter (· ≤ byte)).length = line
    rw [hpassed, List.length_take, Nat.min_eq_left hle]
  have hpos : 1 ≤ line := hcount ▸ one_le_line t byte
  have hlast : ((lineStarts t).filter (· ≤ byte)).getLast? = (lineStarts t)[line - 1]? := by
    rw [hpassed, List.getLast?_take, if_neg (by omega), List.getElem?_eq_getElem (by omega)]
    rfl
  obtain ⟨start, hstart⟩ : ∃ start, (lineStarts t)[line - 1]? = some start :=
    ⟨_, List.getElem?_eq_getElem (by omega)⟩
  have hmem : start ∈ (lineStarts t).filter (· ≤ byte) := List.mem_of_getLast? (hlast.trans hstart)
  have hstop : start ≤ min byte (size t) := by
    obtain ⟨hmem, hbyte⟩ := List.mem_filter.1 hmem
    have := le_size_of_mem_lineStarts hmem
    have := of_decide_eq_true hbyte
    omega
  simp only [lookup?, ← hline, if_neg (by omega : line ≠ 0), List.getElem?_toArray, hstart, Option.bind_eq_bind,
    Option.bind_some, if_pos hstop, Option.pure_def, ofOffset, hlast, Option.getD_some]
  rw [hpassed, List.length_take, Nat.min_eq_left hle]

end Position

end TunnelConf
