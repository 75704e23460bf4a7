/-
  Lox.Store

  Everything that a running program can change.

    * `Frame` — the variables of a scope and the frame around it;
    * `Instance` — the class and the fields of an object;
    * `Store` — all frames and instances, by number in the order of their making,
      and the next stamp.

  A name is looked up in two ways: outward from a frame to the nearest one that
  has it (`get`, `assign`), or in the frame a given number of links out (`getAt`,
  `assignAt`).  Links lead to older frames, so following them ends.  Frame by frame
  the first way is told by `get_here`, `get_outward` and `get_nowhere`, and so for
  `assign`.
-/
import Lox.Diagnostic
import Lox.Value

namespace Lox

/-- The variables of one scope. -/
structure Frame where
  vars : Bindings Value
  /-- The frame around this one. -/
  parent : Option FrameId

/-- An object. -/
structure Instance where
  cls : Class
  fields : Bindings Value

/-- All frames and instances. -/
structure Store where
  frames : Array Frame
  instances : Array Instance
  /-- The stamp of the next function or class value. -/
  nextStamp : Nat

namespace Store

/-- The frame of the global variables. -/
def globals : FrameId := 0

/-- The store with nothing but an empty global frame. -/
def empty : Store := ⟨#[⟨.empty, none⟩], #[], 0⟩

/-! ## Frames -/

/-- Makes a frame. -/
def newFrame (s : Store) (frame : Frame) : FrameId × Store :=
  (s.frames.size, { s with frames := s.frames.push frame })

/-- Makes an empty frame inside another one. -/
def child (s : Store) (parent : FrameId) : FrameId × Store := s.newFrame ⟨.empty, some parent⟩

/-- The value that a frame itself has for a name. -/
def own? (s : Store) (f : FrameId) (name : String) : Option Value :=
  match s.frames[f]? with
  | some frame => frame.vars.get? name
  | none => none

/-- Binds a name in a frame. -/
def define (s : Store) (f : FrameId) (name : String) (value : Value) : Store :=
  { s with frames := s.frames.modify f fun frame =>
      { frame with vars := frame.vars.insert name value } }

/-- The frame around a frame. -/
def parent? (s : Store) (f : FrameId) : Option FrameId :=
  match s.frames[f]? with
  | some frame => frame.parent
  | none => none

/-- The nearest frame, from `f` outward, that has a name. -/
def owner? (s : Store) (name : String) (f : FrameId) : Option FrameId :=
  if (s.own? f name).isSome then some f
  else match s.parent? f with
    | none => none
    -- Links lead to older frames; one that does not is not followed.
    | some g => if g < f then owner? s name g else none
termination_by f

/-- The frame exactly `distance` links out from `f`. -/
def ancestor? (s : Store) (f : FrameId) : (distance : Nat) → Option FrameId
  | 0 => some f
  | distance + 1 =>
    match s.parent? f with
    | none => none
    | some g => ancestor? s g distance

/-- The failure of a look-up. -/
def undefined (name : Lexeme) : RuntimeError := ⟨name.line, .undefinedVariable name.text⟩

/-- Reads a name from the nearest frame that has it. -/
def get (s : Store) (f : FrameId) (name : Lexeme) : Except RuntimeError Value :=
  match (s.owner? name.text f).bind (s.own? · name.text) with
  | some value => .ok value
  | none => .error (undefined name)

/-- Writes a name in the nearest frame that has it. -/
def assign (s : Store) (f : FrameId) (name : Lexeme) (value : Value) :
    Except RuntimeError Store :=
  match s.owner? name.text f with
  | some g => .ok (s.define g name.text value)
  | none => .error (undefined name)

section

variable {s : Store} {f g : FrameId}

theorem owner?_here {name : String} {value : Value} (hown : s.own? f name = some value) :
    s.owner? name f = some f := by
  rw [owner?, hown]
  rfl

theorem owner?_outward {name : String} (hown : s.own? f name = none)
    (hlink : s.parent? f = some g) (hlt : g < f) : s.owner? name f = s.owner? name g := by
  rw [owner?, hown, hlink]
  exact if_pos hlt

theorem owner?_nowhere {name : String} (hown : s.own? f name = none)
    (hlink : s.parent? f = none) : s.owner? name f = none := by
  rw [owner?, hown, hlink]
  rfl

theorem get_here {name : Lexeme} {value : Value} (hown : s.own? f name.text = some value) :
    s.get f name = .ok value := by
  rw [get, owner?_here hown, Option.bind_some, hown]

theorem get_outward {name : Lexeme} (hown : s.own? f name.text = none)
    (hlink : s.parent? f = some g) (hlt : g < f) : s.get f name = s.get g name := by
  rw [get, owner?_outward hown hlink hlt, get]

theorem get_nowhere {name : Lexeme} (hown : s.own? f name.text = none)
    (hlink : s.parent? f = none) : s.get f name = .error (undefined name) := by
  rw [get, owner?_nowhere hown hlink, Option.bind_none]

theorem assign_here {name : Lexeme} {old : Value} (hown : s.own? f name.text = some old)
    (value : Value) : s.assign f name value = .ok (s.define f name.text value) := by
  rw [assign, owner?_here hown]

theorem assign_outward {name : Lexeme} (hown : s.own? f name.text = none)
    (hlink : s.parent? f = some g) (hlt : g < f) (value : Value) :
    s.assign f name value = s.assign g name value := by
  rw [assign, owner?_outward hown hlink hlt, assign]

theorem assign_nowhere {name : Lexeme} (hown : s.own? f name.text = none)
    (hlink : s.parent? f = none) (value : Value) :
    s.assign f name value = .error (undefined name) := by
  rw [assign, owner?_nowhere hown hlink]

end

/-- What the frame `distance` links out has for a name. -/
def namedAt? (s : Store) (f : FrameId) (distance : Nat) (name : String) : Option Value :=
  (s.ancestor? f distance).bind (s.own? · name)

/-- Reads a name from the frame `distance` links out. -/
def getAt (s : Store) (f : FrameId) (distance : Nat) (name : Lexeme) :
    Except RuntimeError Value :=
  match s.namedAt? f distance name.text with
  | some value => .ok value
  | none => .error (undefined name)

/-- Writes a name in the frame `distance` links out, whether it is there or not. -/
def assignAt (s : Store) (f : FrameId) (distance : Nat) (name : Lexeme) (value : Value) :
    Except RuntimeError Store :=
  match s.ancestor? f distance with
  | some g => .ok (s.define g name.text value)
  | none => .error (undefined name)

/-! ## Instances -/

/-- Makes an instance without fields. -/
def newInstance (s : Store) (cls : Class) : InstanceId × Store :=
  (s.instances.size, { s with instances := s.instances.push ⟨cls, .empty⟩ })

/-- The value of a field. -/
def field? (s : Store) (i : InstanceId) (name : String) : Option Value :=
  match s.instances[i]? with
  | some object => object.fields.get? name
  | none => none

/-- Sets a field. -/
def setField (s : Store) (i : InstanceId) (name : String) (value : Value) : Store :=
  { s with instances := s.instances.modify i fun object =>
      { object with fields := object.fields.insert name value } }

/-- The method of a name that an instance has from its class. -/
def method? (s : Store) (i : InstanceId) (name : String) : Option Closure :=
  match s.instances[i]? with
  | some object => object.cls.findMethod name
  | none => none

/-! ## Functions -/

/-- A stamp that no value has yet. -/
def newStamp (s : Store) : Nat × Store := (s.nextStamp, { s with nextStamp := s.nextStamp + 1 })

/-- A method whose body sees an instance under `this`, in a frame of its own. -/
def bindMethod (s : Store) (method : Closure) (i : InstanceId) : Closure × Store :=
  let (frame, s) := s.newFrame ⟨.single "this" (.instance i), some method.frame⟩
  ({ method with frame }, s)

/-- The value of a closure. -/
def functionValue (s : Store) (closure : Closure) : Value × Store :=
  let (stamp, s) := s.newStamp
  (.function closure stamp, s)

end Store

/-! ## Texts of values -/

/-- A value as `print` shows it. -/
def Value.text (s : Store) : Value → String
  | .nil => "nil"
  | .bool value => if value then "true" else "false"
  | .number value => Number.printed value
  | .string content => content
  | .native _ => "<native fn>"
  | .function closure _ => "<fn " ++ closure.decl.name.text ++ ">"
  | .class cls => cls.name
  | .instance id =>
    match s.instances[id]? with
    | some object => object.cls.name ++ " instance"
    | none => "instance"

/-- A value as it is shown to a programmer: strings are quoted. -/
def Value.debugText (s : Store) : Value → String
  | .string content => Text.Quoted.debug content
  | value => value.text s

end Lox
