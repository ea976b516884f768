import Mathlib.Data.List.Nodup
import Mathlib.Data.List.Perm.Subperm
import TunnelConf.Proofs.Storage.Sibling

/-!
# Trees that differ in files

Files come and go and directories stay (`SameDirectories`), so a path leads to the same place before and
after (`SameDirectories.locate_iff`). The name of a new sibling is the first of the names in turn under
which nothing exists (`exists_freshSibling`): a tree has fewer nodes than there are names.
-/

namespace TunnelConf

open TunnelConf.Path

theorem bind_eq_ok_iff {ε α β : Type} {x : Except ε α} {c : α → Except ε β} {b : β} :
    (x >>= c) = .ok b ↔ ∃ a, x = .ok a ∧ c a = .ok b := by
  cases x with
  | error e => simp [bind, Except.bind]
  | ok a => simp [bind, Except.bind]

namespace FileTree

variable {t s u : FileTree} {p : Text} {l m : Location} {n : Node} {f g : File}

/-! ### Changes -/

theorem ne_nil_of_get?_ne (h : t.get? l ≠ some .directory) : l ≠ [] := by
  rintro rfl
  exact h rfl

theorem filter_put_of_ne (h : m ≠ l) (n : Node) (es : List (Location × Node)) :
    (put m n es).filter (·.1 != l) = put m n (es.filter (·.1 != l)) := by
  induction es with
  | nil => simp [put, h]
  | cons e es ih =>
    by_cases he : e.1 = m
    · simp [put, he, h]
    · by_cases hl : e.1 = l
      · simp [put, hl, ih, Ne.symm h]
      · simp [put, he, hl, ih]

theorem erase_insert_of_ne (h : m ≠ l) (t : FileTree) (n : Node) :
    (t.insert m n).erase l = (t.erase l).insert m n := by
  simp only [insert, erase, filter_put_of_ne h]

theorem erase_of_get?_eq_none (h : t.get? l = none) : t.erase l = t := by
  have hne : l ≠ [] := by
    refine ne_nil_of_get?_ne (t := t) ?_
    rw [h]
    simp
  rw [get?, if_neg hne, Option.map_eq_none_iff, List.find?_eq_none] at h
  have hnodes : (t.nodes.filter fun e => e.1 != l) = t.nodes := by
    refine List.filter_eq_self.2 fun e he => ?_
    simpa using h e he
  rw [erase, hnodes]

theorem erase_insert_self (t : FileTree) (l : Location) (n : Node) : (t.insert l n).erase l = t.erase l := by
  have hput : ∀ es : List (Location × Node), (put l n es).filter (·.1 != l) = es.filter (·.1 != l) := by
    intro es
    induction es with
    | nil => simp [put]
    | cons e es ih => by_cases he : e.1 = l <;> simp [put, he, ih]
  rw [erase, insert, hput]
  rfl

theorem erase_insert (h : t.get? l = none) (n : Node) : (t.insert l n).erase l = t := by
  rw [erase_insert_self, erase_of_get?_eq_none h]

/-! ### Directories -/

/-- `s` has the directories of `t`, and the same working directory. -/
structure SameDirectories (t s : FileTree) : Prop where
  here : s.here = t.here
  get? : ∀ l, s.get? l = some .directory ↔ t.get? l = some .directory

namespace SameDirectories

theorem refl (t : FileTree) : SameDirectories t t := ⟨rfl, fun _ => Iff.rfl⟩

theorem trans (h : SameDirectories t s) (h' : SameDirectories s u) : SameDirectories t u :=
  ⟨h'.here.trans h.here, fun l => (h'.get? l).trans (h.get? l)⟩

theorem insert (h : SameDirectories t s) (hl : t.get? l ≠ some .directory) (f : File) :
    SameDirectories t (s.insert l (.file f)) := by
  refine ⟨h.here, fun m => ?_⟩
  rw [get?_insert (ne_nil_of_get?_ne hl)]
  split
  · next hm => simp [hm, hl]
  · exact h.get? m

theorem erase (h : SameDirectories t s) (hl : t.get? l ≠ some .directory) :
    SameDirectories t (s.erase l) := by
  refine ⟨h.here, fun m => ?_⟩
  rw [get?_erase (ne_nil_of_get?_ne hl)]
  split
  · next hm => simp [hm, hl]
  · exact h.get? m

end SameDirectories

/-! ### Paths -/

theorem walk_of_walk (h : ∀ d, t.get? d = some .directory → s.get? d = some .directory)
    {parts : List Text} (hw : t.walk l parts = .ok m) : s.walk l parts = .ok m := by
  induction parts generalizing l with
  | nil => exact hw
  | cons part parts ih =>
    rw [walk] at hw ⊢
    split at hw
    · cases hw
    · cases hw
    · next hd =>
      rw [h l hd]
      dsimp only
      split at hw
      · exact ih hw
      · split at hw
        · cases hw
        · next hsize => rw [if_neg hsize]; exact ih hw
      · exact ih hw

theorem walk_concat (t : FileTree) (l : Location) (parts : List Text) (part : Text) :
    t.walk l (parts ++ [part]) = (t.walk l parts).bind fun d => t.walk d [part] := by
  induction parts generalizing l with
  | nil => rfl
  | cons q qs ih =>
    rw [List.cons_append, walk, walk]
    split
    · rfl
    · rfl
    · split
      · exact ih _
      · split
        · rfl
        · exact ih _
      · exact ih _

/-- A path has a limit of its own, or it is followed part by part. -/
theorem locate_cases (p : Text) :
    (∃ e, ∀ t : FileTree, t.locate p = .error e) ∨
      ∀ t : FileTree, t.locate p = t.walk (if p.head? = some '/' then [] else t.here) (parts p) := by
  simp only [locate, follow]
  split
  · exact .inl ⟨_, fun _ => rfl⟩
  split
  · exact .inl ⟨_, fun _ => rfl⟩
  split
  · exact .inl ⟨_, fun _ => rfl⟩
  · exact .inr fun _ => rfl

/-- The place that a component of a path leads to. -/
def enter (l : Location) : Path.Component → Location
  | .root => []
  | .current => l
  | .parent => l.dropLast
  | .name n => l ++ [n]

theorem eq_foldl_of_walk {ps : List Text} (h : t.walk l ps = .ok m) : m = (ps.filterMap component?).foldl enter l := by
  induction ps generalizing l with
  | nil => exact (Except.ok.inj h).symm
  | cons part ps ih =>
    rw [walk] at h
    split at h
    · cases h
    · cases h
    · rcases component?_cases part with hc | rfl | hc
      · rw [hc] at h
        rw [List.filterMap_cons_none hc]
        exact ih h
      · exact ih h
      · rw [hc] at h
        dsimp only at h
        split at h
        · cases h
        · rw [List.filterMap_cons_some hc]
          exact ih h

/-- If a path leads anywhere, its components tell where. -/
theorem eq_foldl_of_locate (h : t.locate p = .ok l) : l = (components p).foldl enter t.here := by
  rcases locate_cases p with ⟨e, he⟩ | hw
  · rw [he] at h
    cases h
  · rw [hw] at h
    rw [components, List.foldl_append, eq_foldl_of_walk h, head]
    split
    · rfl
    · split
      · rfl
      · rfl

theorem SameDirectories.locate_iff (h : SameDirectories t s) : s.locate p = .ok l ↔ t.locate p = .ok l := by
  rcases locate_cases p with ⟨e, he⟩ | hw
  · rw [he, he]
  · rw [hw, hw, h.here]
    exact ⟨walk_of_walk fun d => (h.get? d).1, walk_of_walk fun d => (h.get? d).2⟩

theorem node_eq_ok_iff : t.node p = .ok n ↔ ∃ l, t.locate p = .ok l ∧ t.get? l = some n := by
  rw [node, bind_eq_ok_iff]
  refine exists_congr fun l => and_congr_right fun _ => ?_
  cases t.get? l <;> simp [pure, Except.pure, throw, throwThe, MonadExceptOf.throw]

theorem node_eq_of_components {q : Text} (h : components p = components q) (hp : t.pathExists p = true)
    (hq : t.pathExists q = true) : t.node p = t.node q := by
  rw [pathExists] at hp hq
  cases hn : t.node p with
  | error e => rw [hn] at hp; cases hp
  | ok n =>
    cases hm : t.node q with
    | error e => rw [hm] at hq; cases hq
    | ok m =>
      obtain ⟨l, hl, hget⟩ := node_eq_ok_iff.1 hn
      obtain ⟨k, hk, hget'⟩ := node_eq_ok_iff.1 hm
      rw [eq_foldl_of_locate hl, h, ← eq_foldl_of_locate hk, hget'] at hget
      rw [Option.some.inj hget]

theorem pathExists_eq_false_iff : t.pathExists p = false ↔ ∀ l, t.locate p = .ok l → t.get? l = none := by
  constructor
  · intro h l hl
    cases hn : t.get? l with
    | none => rfl
    | some n =>
      rw [pathExists, node_eq_ok_iff.2 ⟨l, hl, hn⟩] at h
      cases h
  · intro h
    rw [pathExists]
    cases hn : t.node p with
    | error e => rfl
    | ok n =>
      obtain ⟨l, hl, hget⟩ := node_eq_ok_iff.1 hn
      rw [h l hl] at hget
      cases hget

/-- The file at a path, if one is there. -/
def file? (t : FileTree) (p : Text) : Option File :=
  match t.node p with
  | .ok (.file f) => some f
  | _ => none

theorem file?_eq_some_iff_node : t.file? p = some f ↔ t.node p = .ok (.file f) := by
  rw [file?]
  split
  · next g hg => simp [hg]
  · next h =>
    constructor
    · intro hf
      cases hf
    · intro hf
      exact absurd hf (h f)

theorem file?_eq_some_iff : t.file? p = some f ↔ ∃ l, t.locate p = .ok l ∧ t.get? l = some (.file f) := by
  rw [file?_eq_some_iff_node, node_eq_ok_iff]

theorem readBytes_eq_ok_iff {bytes : List UInt8} : t.readBytes p = .ok bytes ↔
    ∃ f, t.file? p = some f ∧ f.readable = true ∧ f.content = bytes := by
  rw [readBytes, bind_eq_ok_iff]
  constructor
  · rintro ⟨n, hn, h⟩
    cases n with
    | directory => cases h
    | file f =>
      cases hr : f.readable with
      | false => simp [hr, throw, throwThe, MonadExceptOf.throw] at h
      | true => exact ⟨f, file?_eq_some_iff_node.2 hn, hr, by simpa [hr, pure, Except.pure] using h⟩
  · rintro ⟨f, hf, hr, rfl⟩
    exact ⟨_, file?_eq_some_iff_node.1 hf, by simp [hr, pure, Except.pure]⟩

theorem readText_eq_ok_iff {text : Text} : t.readText p = .ok text ↔
    ∃ f, t.file? p = some f ∧ f.readable = true ∧ Text.ofUtf8? f.content = some text := by
  rw [readText, bind_eq_ok_iff]
  constructor
  · rintro ⟨bytes, hb, h⟩
    obtain ⟨f, hf, hr, rfl⟩ := readBytes_eq_ok_iff.1 hb
    cases ht : Text.ofUtf8? f.content with
    | none => rw [ht] at h; cases h
    | some x => rw [ht] at h; exact ⟨f, hf, hr, ht.trans (congrArg some (Except.ok.inj h))⟩
  · rintro ⟨f, hf, hr, ht⟩
    exact ⟨_, readBytes_eq_ok_iff.2 ⟨f, hf, hr, rfl⟩, by rw [ht]; rfl⟩

/-- Where a path leads to the same node in two trees it leads to the same file. -/
theorem SameDirectories.file?_eq (h : SameDirectories t s)
    (hget : ∀ l, t.locate p = .ok l → s.get? l = t.get? l) : s.file? p = t.file? p := by
  refine Option.ext fun f => ?_
  rw [file?_eq_some_iff, file?_eq_some_iff]
  constructor
  · rintro ⟨l, hl, hf⟩
    rw [h.locate_iff] at hl
    exact ⟨l, hl, hget l hl ▸ hf⟩
  · rintro ⟨l, hl, hf⟩
    exact ⟨l, h.locate_iff.2 hl, (hget l hl).trans hf⟩

/-! ### Siblings -/

theorem exists_of_locate_concat {ps : List Text} {q : Text} (hp : parts p = ps ++ [q])
    (h : t.locate p = .ok l) :
    ∃ d, t.walk (if p.head? = some '/' then [] else t.here) ps = .ok d ∧ t.walk d [q] = .ok l := by
  rcases locate_cases p with ⟨e, he⟩ | hw
  · rw [he] at h
    cases h
  rw [hw, hp, walk_concat] at h
  cases hd : t.walk (if p.head? = some '/' then [] else t.here) ps with
  | error e => rw [hd] at h; cases h
  | ok d => rw [hd] at h; exact ⟨d, rfl, h⟩

/-- A last part is looked at in a directory. -/
theorem get?_of_walk_singleton {q : Text} (h : t.walk l [q] = .ok m) : t.get? l = some .directory := by
  rw [walk] at h
  split at h
  · cases h
  · cases h
  · next hdir => exact hdir

theorem eq_concat_of_walk_name {q : Text} (hq : component? q = some (.name q)) (h : t.walk l [q] = .ok m) :
    m = l ++ [q] := by
  rw [walk, get?_of_walk_singleton h, hq] at h
  dsimp only at h
  split at h
  · cases h
  · exact (Except.ok.inj h).symm

theorem getLast?_of_locate_withSuffix {suffix : Text} (hs : IsSuffix suffix)
    (h : t.locate (withSuffix p suffix) = .ok l) : l.getLast? = some (siblingName p suffix) := by
  obtain ⟨ps, hp⟩ := parts_withSuffix (p := p) hs
  obtain ⟨d, -, hd⟩ := exists_of_locate_concat hp h
  rw [eq_concat_of_walk_name (component?_siblingName hs) hd]
  exact List.getLast?_concat

/-- A file that can have siblings is named by the last part of its path. -/
theorem exists_name_of_file {suffix : Text} (hl : t.locate p = .ok l) (hf : t.get? l = some (.file f))
    (hs : IsSuffix suffix) (hm : t.locate (withSuffix p suffix) = .ok m) :
    ∃ ps q, parts p = ps ++ [q] ∧ component? q = some (.name q) ∧ l.getLast? = some q := by
  obtain hnil | ⟨ps, q, hp⟩ := List.eq_nil_or_concat' (parts p)
  · exact absurd hnil (Text.splitWhere_ne_nil _ _)
  obtain ⟨d, hd, hq⟩ := exists_of_locate_concat hp hl
  have hdir := get?_of_walk_singleton hq
  rcases component?_cases q with hnone | rfl | hname
  · -- a part that is passed over leads to the directory itself
    rw [walk, hdir, hnone] at hq
    rw [Except.ok.inj hq, hf] at hdir
    cases hdir
  · -- a sibling would be below the file
    obtain ⟨hparts, hhead⟩ := withSuffix_of_parent hp hs
    obtain ⟨d', hd', hlast⟩ := exists_of_locate_concat hparts hm
    rw [hhead, hp, walk_concat, hd] at hd'
    change t.walk d [['.', '.']] = .ok d' at hd'
    rw [hq] at hd'
    rw [← Except.ok.inj hd'] at hlast
    rw [get?_of_walk_singleton hlast] at hf
    cases hf
  · refine ⟨ps, q, hp, hname, ?_⟩
    rw [eq_concat_of_walk_name hname hq]
    exact List.getLast?_concat

theorem sibling_ne_sibling {suffix suffix' : Text} (hs : IsSuffix suffix) (hs' : IsSuffix suffix')
    (hne : suffix ≠ suffix') (hl : t.locate (withSuffix p suffix) = .ok l)
    (hm : t.locate (withSuffix p suffix') = .ok m) : l ≠ m := by
  have hname := getLast?_of_locate_withSuffix hs hl
  rintro rfl
  rw [getLast?_of_locate_withSuffix hs' hm] at hname
  exact siblingName_ne hne (Option.some.inj hname).symm

theorem file_ne_sibling {suffix : Text} (hs : IsSuffix suffix) (hl : t.locate p = .ok l)
    (hf : t.get? l = some (.file f)) (hm : t.locate (withSuffix p suffix) = .ok m) : l ≠ m := by
  obtain ⟨ps, q, hp, hq, hlast⟩ := exists_name_of_file hl hf hs hm
  rintro rfl
  rw [getLast?_of_locate_withSuffix hs hm] at hlast
  exact siblingName_ne_of_fileName? (fileName?_of_name hp hq) (Option.some.inj hlast)

/-! ### Fresh names -/

theorem exists_node_of_pathExists {n : Nat} (h : t.pathExists (temporaryPath p n) = true) :
    ∃ e ∈ t.nodes, e.1.getLast? = some (siblingName p (temporarySuffix n)) := by
  by_contra hno
  refine absurd h (Bool.eq_false_iff.1 (pathExists_eq_false_iff.2 fun l hl => ?_))
  have hlast := getLast?_of_locate_withSuffix (isSuffix_temporary n) hl
  have hne : l ≠ [] := by
    rintro rfl
    cases hlast
  rw [get?, if_neg hne, Option.map_eq_none_iff, List.find?_eq_none]
  intro e he heq
  exact hno ⟨e, he, by rw [eq_of_beq heq, hlast]⟩

/-- Not all of the names in turn are in use, since a tree has fewer nodes than that. -/
theorem exists_pathExists_eq_false (t : FileTree) (p : Text) :
    ∃ n < t.nodes.length + 1, t.pathExists (temporaryPath p n) = false := by
  by_contra hno
  have hall : ∀ n < t.nodes.length + 1, t.pathExists (temporaryPath p n) = true := by
    intro n hn
    by_contra hfree
    exact hno ⟨n, hn, Bool.eq_false_iff.2 hfree⟩
  let name := fun n => some (siblingName p (temporarySuffix n))
  have hinj : Function.Injective name := by
    intro m n h
    by_contra hne
    exact siblingName_ne (fun he => hne (temporarySuffix_inj he)) (Option.some.inj h)
  have hnodup := List.Nodup.map hinj (List.nodup_range (n := t.nodes.length + 1))
  have hsub : (List.range (t.nodes.length + 1)).map name ⊆ t.nodes.map (·.1.getLast?) := by
    intro x hx
    obtain ⟨n, hn, rfl⟩ := List.mem_map.1 hx
    obtain ⟨e, he, hlast⟩ := exists_node_of_pathExists (hall n (List.mem_range.1 hn))
    exact List.mem_map.2 ⟨e, he, hlast⟩
  have hle := (hnodup.subperm hsub).length_le
  rw [List.length_map, List.length_map, List.length_range] at hle
  omega

/-- The fresh sibling has the first of the names in turn under which nothing exists. -/
theorem exists_freshSibling (t : FileTree) (p : Text) :
    ∃ n, t.freshSibling p = temporaryPath p n ∧ t.pathExists (temporaryPath p n) = false ∧
      ∀ k < n, t.pathExists (temporaryPath p k) = true := by
  obtain ⟨k, hk, hfree⟩ := exists_pathExists_eq_false t p
  rw [freshSibling, List.find?_map]
  cases hfind : (List.range (t.nodes.length + 1)).find? ((fun c => !t.pathExists c) ∘ temporaryPath p) with
  | none =>
    have := List.find?_eq_none.1 hfind k (List.mem_range.2 hk)
    rw [Function.comp_apply, hfree] at this
    exact absurd rfl this
  | some n =>
    obtain ⟨hn, -, hfirst⟩ := List.find?_range_eq_some.1 hfind
    refine ⟨n, rfl, by simpa using hn, fun j hj => ?_⟩
    simpa using hfirst j hj

end FileTree

end TunnelConf
