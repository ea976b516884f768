import TunnelConf.Text.Number

/-!
# JSON output

Values and their written form on several lines, with two spaces more for each level. Members are
written in the order in which they are given.
-/

namespace TunnelConf

inductive JsonTree
  | null
  | bool (b : Bool)
  | number (n : Nat)
  | text (t : Text)
  | array (items : List JsonTree)
  | object (members : List (String × JsonTree))

namespace JsonTree

def ofOption {α : Type} (f : α → JsonTree) (o : Option α) : JsonTree := o.elim .null f

def escapeChar (c : Char) : Text :=
  if c = '"' || c = '\\' then ['\\', c]
  else if c = '\n' then ['\\', 'n']
  else if c = '\r' then ['\\', 'r']
  else if c = '\t' then ['\\', 't']
  else if c = '\x08' then ['\\', 'b']
  else if c = '\x0c' then ['\\', 'f']
  else if c < ' ' then
    "\\u00".toList ++ Nat.toDigits 16 (c.toNat / 16) ++ Nat.toDigits 16 (c.toNat % 16)
  else [c]

/-- A text in quotes; characters outside ASCII stand as they are. -/
def quote (t : Text) : Text := '"' :: t.flatMap escapeChar ++ ['"']

def newLine (depth : Nat) : Text := '\n' :: List.replicate (2 * depth) ' '

mutual

def render (depth : Nat) : JsonTree → Text
  | .null => "null".toList
  | .bool true => "true".toList
  | .bool false => "false".toList
  | .number n => Text.ofNat n
  | .text t => quote t
  | .array [] => ['[', ']']
  | .array (item :: items) =>
    '[' :: newLine (depth + 1) ++ render (depth + 1) item ++ renderItems (depth + 1) items ++
      newLine depth ++ [']']
  | .object [] => ['\x7b', '\x7d']
  | .object (m :: ms) =>
    '\x7b' :: newLine (depth + 1) ++ renderMember (depth + 1) m ++ renderMembers (depth + 1) ms ++
      newLine depth ++ ['\x7d']

def renderItems (depth : Nat) : List JsonTree → Text
  | [] => []
  | item :: items => ',' :: newLine depth ++ render depth item ++ renderItems depth items

def renderMember (depth : Nat) : String × JsonTree → Text
  | (key, value) => quote key.toList ++ [':', ' '] ++ render depth value

def renderMembers (depth : Nat) : List (String × JsonTree) → Text
  | [] => []
  | m :: ms => ',' :: newLine depth ++ renderMember depth m ++ renderMembers depth ms

end

end JsonTree

end TunnelConf
