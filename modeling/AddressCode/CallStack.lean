import AddressCode.Heap

/-!
# AddressCode.CallStack — the frames of the active calls

Each call has a frame with the variables of its own.  The frame at the bottom of the stack is the
root; the depth of a frame is the number of frames below it.
-/

namespace AddressCode

/-- The variables of a call. -/
structure Frame where
  name : String
  depth : Nat
  heap : Heap
deriving Repr, DecidableEq, Inhabited

/-- The text of a frame. -/
def Frame.text (f : Frame) : String := "<mem " ++ f.name ++ " #" ++ toString f.depth ++ ">"

/-- Is a frame the root of its stack? -/
def Frame.isRoot (f : Frame) : Bool := f.depth == 0

/-- The frames of the active calls, the youngest in front. -/
structure CallStack where
  frames : List Frame
deriving Repr, DecidableEq

/-- What cannot be done with a stack without frames. -/
inductive EmptyStack where
  | noCurrent
  | noRoot
  | noPop
deriving Repr, DecidableEq

/-- The text of what cannot be done. -/
def EmptyStack.message : EmptyStack → String
  | noCurrent => "attempt to access memory frame from empty stack"
  | noRoot => "attempt to access root memory frame from empty stack"
  | noPop => "attempt to pop memory frame from empty call stack"

namespace CallStack

/-- The depth of a frame pushed onto the given ones. -/
def depthAbove : List Frame → Nat
  | [] => 0
  | f :: _ => f.depth + 1

/-- Push a frame without variables. -/
def push (cs : CallStack) (name : String) : CallStack :=
  ⟨⟨name, depthAbove cs.frames, .empty⟩ :: cs.frames⟩

/-- A stack with a root frame only. -/
def new (rootName : String) : CallStack := push ⟨[]⟩ rootName

/-- The youngest frame. -/
def current (cs : CallStack) : Except EmptyStack Frame :=
  match cs.frames with
  | f :: _ => .ok f
  | [] => .error .noCurrent

/-- The oldest frame. -/
def root (cs : CallStack) : Except EmptyStack Frame :=
  match cs.frames.getLast? with
  | some f => .ok f
  | none => .error .noRoot

/-- Take off the youngest frame. -/
def pop (cs : CallStack) : Except EmptyStack (Frame × CallStack) :=
  match cs.frames with
  | f :: older => .ok (f, ⟨older⟩)
  | [] => .error .noPop

/-- The depth of the youngest frame, or -1 if there is none. -/
def depth (cs : CallStack) : Int :=
  match cs.frames with
  | f :: _ => f.depth
  | [] => -1

/-- Change the variables of the youngest frame. -/
def modifyHeap (cs : CallStack) (f : Heap → Heap) : CallStack :=
  match cs.frames with
  | fr :: older => ⟨{ fr with heap := f fr.heap } :: older⟩
  | [] => cs

/-- The names of the frames from the root up to the youngest, with strokes between them. -/
def path (cs : CallStack) : String :=
  "/".intercalate (cs.frames.reverse.map (·.name))

end CallStack

end AddressCode
