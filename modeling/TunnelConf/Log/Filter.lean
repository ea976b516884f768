import TunnelConf.Log.Record
import TunnelConf.Pattern.Meaning
import TunnelConf.Text.Letter
import TunnelConf.Text.Space

/-!
# Log filters

A filter says which records are worth a log line. Each of its directives has a level for the events
or the tasks in its scope: `origin[task{field=value}]=level`, of which any part may be missing. The
most specific directive that concerns an event decides on it, and a directive that covers a task can
admit more of the events of that task.
-/

namespace TunnelConf

/-- A field, and the value that it should have if any is given. -/
structure Detail where
  name : Text
  value : Option Text
deriving DecidableEq, Repr

namespace Detail

/-- Truth values and numbers are no patterns. -/
def isScalar (v : Text) : Bool := ["true", "false"].any (·.toList == v) || Text.isDecimal v

/-- A name, or a name and a value with an equals sign between them. -/
def ofText? (t : Text) : Option Detail :=
  match Text.splitWhere (· == '=') t with
  | name :: value :: _ =>
    if isScalar value || (Pattern.ofText? value).isSome then some ⟨name, some value⟩ else none
  | _ => if t.isEmpty then none else some ⟨t, none⟩

/-- The fields of tasks are texts, which no truth value and no number matches. -/
def admits (d : Detail) (actual : Text) : Bool :=
  d.value.all fun v => !isScalar v && (Pattern.ofText? v).any (·.matchesEnd actual)

end Detail

/-- What a directive is about. -/
structure Scope where
  origin : Option Text
  task : Option Text
  detail : Option Detail
deriving DecidableEq, Repr

namespace Scope

/-- The scope of everything. -/
def whole : Scope := ⟨none, none, none⟩

/-- Whether a part of the program is the one that a scope names, or belongs to it. -/
def includes (s : Scope) (origin : Text) : Bool := s.origin.all (·.isPrefixOf origin)

/-- Whether a scope speaks of an event by itself. One with a task or with the value of a field
speaks of tasks only. -/
def concerns (s : Scope) (e : Event) : Bool :=
  s.task.isNone && s.includes e.origin &&
    s.detail.all fun d => d.value.isNone && e.fields.contains d.name

/-- Whether a scope with a task or a field covers the events of a task. -/
def covers (s : Scope) (t : Task) : Bool :=
  (s.task.isSome || s.detail.isSome) && s.includes Task.origin && s.task.all (· == t.name) &&
    s.detail.all fun d => (t.fields.lookup d.name).any d.admits

/-- How specific a scope is: the longer name of a part counts first, then whether there is a
field. -/
def weight (s : Scope) : Nat :=
  2 * s.origin.elim 0 (fun o => Text.size o + 1) + if s.detail.isSome then 1 else 0

/-- The order of scopes that concern one event, which their weights and then the names of their
fields decide. -/
def ble (s t : Scope) : Bool :=
  let name := fun s : Scope => s.detail.elim [] Detail.name
  s.weight < t.weight || (s.weight == t.weight && Text.ble (name s) (name t))

end Scope

structure Directive where
  scope : Scope
  level : LogLevel
deriving DecidableEq, Repr

namespace Directive

/-- A level that is left out is the most verbose one. -/
def levelOf? (t : Text) : Option LogLevel :=
  if t.isEmpty then some .trace else LogLevel.ofDirective? t

/-- What stands behind a scope: nothing, or an equals sign and a level. The tail is at byte `n` of
the directive. -/
def readLevel? (t : Text) (scope : Scope) (n : Nat) : Text → Option Directive
  | [] => some ⟨scope, .trace⟩
  | '=' :: _ => do
    let (_, level) ← Text.cut? (n + 1) t
    return ⟨scope, ← levelOf? level⟩
  | _ => none

/-- What stands behind an opening bracket: a task, a field in braces, or both, and the closing
bracket. The rest is at byte `n` of the directive. A task without a name counts unless a field
follows. -/
def readTask? (t : Text) (origin : Option Text) (n : Nat) (rest : Text) : Option Directive := do
  let name := rest.takeWhile fun c => c != ']' && c != '\x7b'
  let stop := n + Text.size name
  let task ← Text.slice? n (Text.size name) t
  match rest.drop name.length with
  | ']' :: tail => readLevel? t ⟨origin, some task, none⟩ (stop + 1) tail
  | _ :: inner =>
    let field := inner.takeWhile (· != '\x7d')
    match inner.drop field.length with
    | _ :: ']' :: tail =>
      let detail ← Detail.ofText? (← Text.slice? (stop + 1) (Text.size field) t)
      readLevel? t ⟨origin, if task.isEmpty then none else some task, some detail⟩
        (stop + Text.size field + 3) tail
    | _ => none
  | [] => none

/-- The characters that the name of a part may start with. -/
def isStart (c : Char) : Bool := Text.isLetterOrNumber c || c == '-' || c == ':' || c == '_'

/-- Reads a directive. Where its pieces begin and end is found without the white space around it,
and they are then taken from the same bytes of the whole. A word by itself is a level if there is
one of that name, and a part of the program otherwise. -/
def ofText? (t : Text) : Option Directive :=
  match Text.trim t with
  | [] => none
  | '[' :: rest => readTask? t none 1 rest
  | c :: rest =>
    let name := c :: rest.takeWhile fun c => c != '=' && c != '['
    let stop := Text.size name
    if !isStart c then none
    else
      match rest.drop (name.length - 1) with
      | [] => some ((LogLevel.ofDirective? t).elim ⟨⟨some t, none, none⟩, .trace⟩ (⟨.whole, ·⟩))
      | '[' :: inner => do readTask? t (some (← Text.slice? 0 stop t)) (stop + 1) inner
      | tail => do readLevel? t ⟨some (← Text.slice? 0 stop t), none, none⟩ stop tail

end Directive

abbrev LogFilter := List Directive

namespace LogFilter

/-- A directive takes the place of one with the same scope. -/
def add (f : LogFilter) (d : Directive) : LogFilter :=
  f.filter (fun other => other.scope != d.scope) ++ [d]

/-- The directives of a text with commas between them. Without any, errors are logged. -/
def ofText? (t : Text) : Option LogFilter := do
  let ds ← ((Text.splitWhere (· == ',') t).filter fun d => !d.isEmpty).mapM Directive.ofText?
  return if ds.isEmpty then [⟨.whole, .error⟩] else ds.foldl add []

/-- The directive that decides on an event by itself. -/
def decisive? (f : LogFilter) (e : Event) : Option Directive :=
  (f.filter (·.scope.concerns e)).foldl
    (fun best d => some (best.elim d fun b => if b.scope.ble d.scope then d else b)) none

def admits (f : LogFilter) (r : LogRecord) : Bool :=
  (f.decisive? r.event).any (fun d => r.event.level.rank ≤ d.level.rank) ||
    f.any fun d => r.task.any d.scope.covers && r.event.level.rank ≤ d.level.rank

end LogFilter

end TunnelConf
