import Prognosis.Document.Value

/-!
# Texts as far as they can be read

A `Node` is a document value together with the faults of its text, each at the place where a reader
meets it: a value that cannot be read is `broken`, a list or table that does not end as it should is
not `closed`, a number may be too large and a text may lack half of a character.  Nothing after a
fault that stops reading is part of the tree.

`sound?` is the value of a tree without faults; `toNode` goes back, and the two are inverse
(`Value.sound?_toNode`, `Node.toNode_of_sound?`).
-/

namespace Prognosis.Document

/-- A document value with the faults of its text. -/
inductive Node where
  | null
  | bool (b : Bool)
  /-- A number, none where it exceeds binary64. -/
  | num (n : Option Number)
  /-- A text, none where an escape gives half a character. -/
  | text (s : Option String)
  | list (items : List Node) (closed : Bool)
  | table (members : List (Option String × Node)) (closed : Bool)
  | broken

instance : Inhabited Node := ⟨.broken⟩

/-- What is wrong with a text. -/
inductive Fault where
  /-- The text breaks the rules of its format. -/
  | malformed
  /-- A value is not what is wanted in its place. -/
  | mismatch
  deriving DecidableEq, Repr

mutual

/-- Whether a value can be passed over: only its punctuation counts. -/
def Node.passable : Node → Bool
  | .list items closed => allPassable items && closed
  | .table members closed => allMembersPassable members && closed
  | .broken => false
  | _ => true

def allPassable : List Node → Bool
  | [] => true
  | n :: ns => n.passable && allPassable ns

def allMembersPassable : List (Option String × Node) → Bool
  | [] => true
  | (_, n) :: ms => n.passable && allMembersPassable ms

end

mutual

/-- The number of lists and tables around the innermost value, the outermost included. -/
def Node.depth : Node → Nat
  | .list items _ => depthOfItems items + 1
  | .table members _ => depthOfMembers members + 1
  | _ => 0

def depthOfItems : List Node → Nat
  | [] => 0
  | n :: ns => max n.depth (depthOfItems ns)

def depthOfMembers : List (Option String × Node) → Nat
  | [] => 0
  | (_, n) :: ms => max n.depth (depthOfMembers ms)

end

mutual

/-- The value of a tree without faults. -/
def Node.sound? : Node → Option Value
  | .null => some .null
  | .bool b => some (.bool b)
  | .num n => n.map .num
  | .text s => s.map .text
  | .list items closed => if closed then (soundItems? items).map .list else none
  | .table members closed => if closed then (soundMembers? members).map .table else none
  | .broken => none

def soundItems? : List Node → Option (List Value)
  | [] => some []
  | n :: ns =>
    match n.sound?, soundItems? ns with
    | some v, some vs => some (v :: vs)
    | _, _ => none

def soundMembers? : List (Option String × Node) → Option (List (String × Value))
  | [] => some []
  | (k, n) :: ms =>
    match k, n.sound?, soundMembers? ms with
    | some k, some v, some vs => some ((k, v) :: vs)
    | _, _, _ => none

end

mutual

def Value.toNode : Value → Node
  | .null => .null
  | .bool b => .bool b
  | .num n => .num (some n)
  | .text s => .text (some s)
  | .list items => .list (nodesOf items) true
  | .table members => .table (memberNodesOf members) true

def nodesOf : List Value → List Node
  | [] => []
  | v :: vs => v.toNode :: nodesOf vs

def memberNodesOf : List (String × Value) → List (Option String × Node)
  | [] => []
  | (k, v) :: ms => (some k, v.toNode) :: memberNodesOf ms

end

mutual

theorem Node.toNode_of_sound? {n : Node} {v : Value} (h : n.sound? = some v) : v.toNode = n := by
  match n with
  | .null => cases h; rfl
  | .bool b => cases h; rfl
  | .num n => cases n <;> cases h; rfl
  | .text s => cases s <;> cases h; rfl
  | .list items closed =>
    cases closed <;> simp [Node.sound?] at h
    obtain ⟨vs, hvs, rfl⟩ := h
    rw [Value.toNode, nodesOf_of_soundItems? hvs]
  | .table members closed =>
    cases closed <;> simp [Node.sound?] at h
    obtain ⟨vs, hvs, rfl⟩ := h
    rw [Value.toNode, memberNodesOf_of_soundMembers? hvs]
  | .broken => cases h

theorem nodesOf_of_soundItems? {ns : List Node} {vs : List Value}
    (h : soundItems? ns = some vs) : nodesOf vs = ns := by
  match ns with
  | [] => cases h; rfl
  | n :: ns =>
    unfold soundItems? at h
    split at h
    · next v vs' hv hvs =>
      cases h
      rw [nodesOf, Node.toNode_of_sound? hv, nodesOf_of_soundItems? hvs]
    · cases h

theorem memberNodesOf_of_soundMembers? {ms : List (Option String × Node)}
    {vs : List (String × Value)} (h : soundMembers? ms = some vs) : memberNodesOf vs = ms := by
  match ms with
  | [] => cases h; rfl
  | (none, n) :: ms => simp [soundMembers?] at h
  | (some k, n) :: ms =>
    unfold soundMembers? at h
    split at h
    · next v vs' hk hv hvs =>
      cases h
      cases hk
      rw [memberNodesOf, Node.toNode_of_sound? hv, memberNodesOf_of_soundMembers? hvs]
    · cases h

end

mutual

@[simp] theorem Value.sound?_toNode : (v : Value) → v.toNode.sound? = some v
  | .null => rfl
  | .bool _ => rfl
  | .num _ => rfl
  | .text _ => rfl
  | .list items => by simp [Value.toNode, Node.sound?, soundItems?_nodesOf items]
  | .table members => by simp [Value.toNode, Node.sound?, soundMembers?_memberNodesOf members]

@[simp] theorem soundItems?_nodesOf : (vs : List Value) → soundItems? (nodesOf vs) = some vs
  | [] => rfl
  | v :: vs => by simp [nodesOf, soundItems?, v.sound?_toNode, soundItems?_nodesOf vs]

@[simp] theorem soundMembers?_memberNodesOf :
    (ms : List (String × Value)) → soundMembers? (memberNodesOf ms) = some ms
  | [] => rfl
  | (k, v) :: ms => by
    simp [memberNodesOf, soundMembers?, v.sound?_toNode, soundMembers?_memberNodesOf ms]

end

end Prognosis.Document
