import Twcos.Run.Steps

/-!
# Exceptions

Model of `libk/exception.c`. A `KTRY` block is a loop around a chain of conditions: `exception_finished` moves the
frame of the block from state to state, and `exception_try`, `exception_match` and `exception_finally` tell which
clause runs in this turn. `KTHROW` goes back to the head of the loop of the innermost block by `longjmp`.

The machine has the rest of the computation explicitly, as a list of things to do: a `jmp_buf` is such a list. The
trace of a run tells which clauses are entered, which destructors run, and how each block is left.

C → Lean naming: `struct exception_def` → `ExceptionDef`, `exception_cause` → `Cause`, `exception_frame` → `Frame`,
`exception_finished` → `exceptionFinished` and so on. Definitions made by `EXCEPTION_DEF` are static, with a copy in
every file, so that it is the name that tells them apart. A frame of the destructor stack is known by its height.
-/

namespace Twcos.Exception

/-- `struct exception_def`: a name, and a parent except at the top. -/
inductive ExceptionDef where
  | top (name : String)
  | sub (name : String) (parent : ExceptionDef)
deriving DecidableEq

def ExceptionDef.name : ExceptionDef → String
  | .top name => name
  | .sub name _ => name

/-- The names of a definition and of its ancestors. -/
def ExceptionDef.ancestors : ExceptionDef → List String
  | .top name => [name]
  | .sub name parent => name :: parent.ancestors

/-- `__FILE__` and `__LINE__`. -/
structure Site where
  file : String
  line : Nat
deriving DecidableEq

/-- `struct exception_cause`, with the formatted message. -/
structure Cause where
  type : ExceptionDef
  site : Site
  message : String
deriving DecidableEq

/-- The cause of an exception that is thrown: `vsnprintf` cuts the message off at the 256 characters of its buffer, and puts
    a NUL behind it only if it is shorter. -/
def causeOf (type : ExceptionDef) (site : Site) (message : String) : Cause :=
  ⟨type, site, String.ofList (message.toList.take 256)⟩

/-- A `KTRY` block with its `KCATCH` and `KFINALLY` clauses. -/
structure Block (S : Type) where
  site : Site
  body : S
  catches : List (ExceptionDef × S)
  finally? : Option S

/-- Programs over actions `A`, functions `F` and destructors `D`. -/
inductive Stmt (A F D : Type) where
  | skip
  | act (a : A)
  | seq (p q : Stmt A F D)
  | call (f : F)
  | throw (type : ExceptionDef) (site : Site) (message : String)
  | dtorPush (d : D)
  | dtorRemove (d : D)
  | ktry (b : Block (Stmt A F D))

/-- The clauses of a block. -/
inductive Clause where
  | body
  | handler (i : Nat)
  | finally
deriving DecidableEq

/-- What can be seen of a run. -/
inductive Event (A D : Type) where
  | act (a : A)
  | enter (site : Site) (clause : Clause)
  | dtor (d : D)
  | leave (site : Site) (caught : Bool) (out : Option Cause)
deriving DecidableEq

section Machine
variable {A F D : Type} [DecidableEq D]

/-- `enum estates`. -/
inductive Estate where
  | new
  | trying
  | catching
  | finishing
deriving DecidableEq

/-- What is left to do: a statement, or the loop of a block. -/
inductive Item (A F D : Type) where
  | stmt (p : Stmt A F D)
  | loop (b : Block (Stmt A F D))

/-- `struct exception_frame`. -/
structure Frame (A F D : Type) where
  site : Site
  state : Estate
  caught : Bool
  env : List (Item A F D)
  dtorFrame : Nat
  cause : Option Cause

/-- A thread: what is left to do, its chain of frames, its destructors and what it has done. A destructor that was
    removed leaves its frame behind. -/
structure Thread (A F D : Type) where
  todo : List (Item A F D)
  frames : List (Frame A F D)
  dtors : List (Option D)
  trace : List (Event A D)

/-- The state of the machine. An exception without a frame to go to is written through a null pointer. -/
inductive State (A F D : Type) where
  | run (t : Thread A F D)
  | unhandled (cause : Cause) (dtors : List (Option D)) (trace : List (Event A D))
  | panic (trace : List (Event A D))

/-- How many frames `dtor_pop` takes off: those above the given one, or all if it is not there. -/
def popCount (bottom : Nat) (dtors : List (Option D)) : Nat :=
  if bottom ≤ dtors.length then dtors.length - bottom else dtors.length

/-- The destructors that `dtor_pop` runs, newest first. -/
def popped (bottom : Nat) (dtors : List (Option D)) : List D :=
  (dtors.take (popCount bottom dtors)).filterMap id

/-- The stack that `dtor_pop` leaves. -/
def kept (bottom : Nat) (dtors : List (Option D)) : List (Option D) := dtors.drop (popCount bottom dtors)

/-- `dtor_remove`. -/
def dtorRemove (d : D) : List (Option D) → List (Option D)
  | [] => []
  | e :: es => if e = some d then none :: es else e :: dtorRemove d es

/-- `exception_push`, with the place that `setjmp` saves. -/
def exceptionPush (site : Site) (env : List (Item A F D)) (t : Thread A F D) : Thread A F D :=
  { t with
    todo := env
    frames := ⟨site, .new, false, env, t.dtors.length, none⟩ :: t.frames }

/-- `exception_throw_cause`. -/
def exceptionThrowCause (cause : Cause) (frames : List (Frame A F D)) (dtors : List (Option D))
    (trace : List (Event A D)) : State A F D :=
  match frames with
  | [] => .unhandled cause dtors trace
  | f :: fs => .run ⟨f.env, { f with cause := some cause } :: fs, dtors, trace⟩

/-- `exception_throw`. -/
def exceptionThrow (type : ExceptionDef) (site : Site) (message : String) (t : Thread A F D) : State A F D :=
  exceptionThrowCause (causeOf type site message) t.frames t.dtors t.trace

/-- What `exception_finished` comes to: it returns 0 or 1, throws the cause of the frame, or panics. -/
inductive Finished (A F D : Type) where
  | no (frames : List (Frame A F D))
  | yes (frame : Frame A F D) (next : List (Frame A F D))
  | rethrow (cause : Cause) (frame : Frame A F D) (next : List (Frame A F D))
  | panic

/-- `exception_finished`, without the destructors. The frames before that of the block stay where they are, except
    when the block is left. -/
def exceptionFinished (site : Site) : List (Frame A F D) → Finished A F D
  | [] => .panic
  | frame :: next =>
    if frame.site ≠ site then
      match exceptionFinished site next with
      | .no frames => .no (frame :: frames)
      | r => r
    else
      match frame.state with
      | .new => .no ({ frame with state := .trying } :: next)
      | .trying =>
        if frame.cause.isSome then .no ({ frame with state := .catching } :: next)
        else .no ({ frame with state := .finishing } :: next)
      | .catching => .no ({ frame with state := .finishing } :: next)
      | .finishing =>
        match frame.cause with
        | some cause => if frame.caught = false then .rethrow cause frame next else .yes frame next
        | none => .yes frame next

/-- `exception_try`. -/
def exceptionTry (f : Frame A F D) : Bool := f.state = .trying

/-- The loop of `exception_match` through the ancestors of the type. -/
def matchType (m : ExceptionDef) : ExceptionDef → Bool
  | .top name => name = m.name
  | .sub name parent => if name = m.name then true else matchType m parent

/-- `exception_match`. -/
def exceptionMatch (m : ExceptionDef) (f : Frame A F D) : Frame A F D × Bool :=
  if f.state = .catching then
    match f.cause with
    | some cause => if matchType m cause.type then ({ f with caught := true }, true) else (f, false)
    | none => (f, false)
  else (f, false)

/-- `exception_finally`. -/
def exceptionFinally (f : Frame A F D) : Bool := f.state = .finishing

/-- The `KCATCH` clauses, in order, counted from `i`. -/
def catchChain (f : Frame A F D) :
    List (ExceptionDef × Stmt A F D) → Nat → Frame A F D × Option (Clause × Stmt A F D)
  | [], _ => (f, none)
  | (m, p) :: rest, i =>
    if (exceptionMatch m f).2 then ((exceptionMatch m f).1, some (.handler i, p)) else catchChain f rest (i + 1)

/-- The conditions in the loop of a block: the clause that runs in this turn, if any. -/
def chain (b : Block (Stmt A F D)) (f : Frame A F D) : Frame A F D × Option (Clause × Stmt A F D) :=
  if exceptionTry f then (f, some (.body, b.body))
  else
    match catchChain f b.catches 0 with
    | (f, some clause) => (f, some clause)
    | (f, none) =>
      match b.finally? with
      | some p => if exceptionFinally f then (f, some (.finally, p)) else (f, none)
      | none => (f, none)

/-- The loop of a block, at its head. -/
def blockLoop (b : Block (Stmt A F D)) (todo : List (Item A F D)) (t : Thread A F D) : State A F D :=
  match exceptionFinished b.site t.frames with
  | .panic => .panic t.trace
  | .no [] => .panic t.trace
  | .no (f :: fs) =>
    match chain b f with
    | (f, some (clause, p)) =>
      .run ⟨.stmt p :: .loop b :: todo, f :: fs, t.dtors, t.trace ++ [.enter b.site clause]⟩
    | (f, none) => .run ⟨.loop b :: todo, f :: fs, t.dtors, t.trace⟩
  | .yes f next =>
    .run ⟨todo, next, kept f.dtorFrame t.dtors,
      t.trace ++ (popped f.dtorFrame t.dtors).map .dtor ++ [.leave b.site f.caught none]⟩
  | .rethrow cause f next =>
    exceptionThrowCause cause next (kept f.dtorFrame t.dtors)
      (t.trace ++ (popped f.dtorFrame t.dtors).map .dtor ++ [.leave b.site f.caught (some cause)])

variable (code : F → Stmt A F D)

/-- One step of a thread; it has stopped when there is nothing left to do. -/
def step : State A F D → Option (State A F D)
  | .run t =>
    match t.todo with
    | [] => none
    | .stmt .skip :: todo => some (.run { t with todo := todo })
    | .stmt (.act a) :: todo => some (.run { t with todo := todo, trace := t.trace ++ [.act a] })
    | .stmt (.seq p q) :: todo => some (.run { t with todo := .stmt p :: .stmt q :: todo })
    | .stmt (.call f) :: todo => some (.run { t with todo := .stmt (code f) :: todo })
    | .stmt (.throw type site message) :: _ => some (exceptionThrow type site message t)
    | .stmt (.dtorPush d) :: todo => some (.run { t with todo := todo, dtors := some d :: t.dtors })
    | .stmt (.dtorRemove d) :: todo => some (.run { t with todo := todo, dtors := dtorRemove d t.dtors })
    | .stmt (.ktry b) :: todo => some (.run (exceptionPush b.site (.loop b :: todo) t))
    | .loop b :: todo => some (blockLoop b todo t)
  | _ => none

/-- A thread that has not started its program. -/
def start (p : Stmt A F D) : State A F D := .run ⟨[.stmt p], [], [], []⟩

end Machine

end Twcos.Exception
