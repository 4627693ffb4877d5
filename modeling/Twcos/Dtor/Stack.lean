import Twcos.Chain.Basic
import Twcos.Prog.Calls

/-!
# The destructor stack

Model of `libk/destructor.c`. Each thread has a stack of frames in its thread-local storage, and frames that are popped
go to a pool that all threads share, linked through the same field. `dtors_simulate` says that the memory always is
what the abstract stacks (`Stacks`) say, of which no two share a frame, and that `dtor_pop` runs what they have.

Frames are addresses, and the null pointer is `none`. `calloc` gives the address that comes with the call; it is one
that has not been given out. `ran` has the destructors that were run so far, which do not use the stack themselves.

C → Lean naming: `struct dtor_t` is spread over `next`, `dtor` and `p`; `dtor_push` → `dtorPush` and so on.
-/

namespace Twcos.Dtor
open Twcos.Prog Function

section Code
variable (T F P : Type) [DecidableEq T] [DecidableEq F] [DecidableEq P]

/-- The memory of all frames; `frames` is a pointer to the head of the pool. -/
structure Mem where
  next : Nat → Option Nat
  dtor : Nat → Option F
  p : Nat → P
  frames : Option (Option Nat)
  tls : T → Option Nat
  allocated : List Nat
  ran : List (T × F × P)

/-- A null pointer is followed. -/
inductive Fault where
  | nullPointer
deriving DecidableEq

/-- What can be called; a push has the address that `calloc` gives if it is called. -/
inductive Call where
  | push (t : T) (dtor : F) (p : P) (a : Nat)
  | remove (t : T) (dtor : F) (p : P)
  | pop (t : T) (until_ : Option Nat)

variable {T F P}

/-- `dtor_poll_frame`. -/
def dtorPollFrame (t : T) : Prog Fault (Mem T F P) (Option Nat) := asks fun m => m.tls t

/-- The destructor of a frame is run, if it has one. -/
def runFrame (t : T) (frame : Nat) (m : Mem T F P) : Mem T F P :=
  match m.dtor frame with
  | none => m
  | some dtor => { m with ran := m.ran ++ [(t, dtor, m.p frame)], dtor := update m.dtor frame none }

/-- The loop of `dtor_pop`: `last` and `frame` at its end. -/
def popLoop (t : T) (until_ : Option Nat) :
    Option Nat × Option Nat → Prog Fault (Mem T F P) (Option Nat × Option Nat) :=
  loop fun (last, frame) =>
    match frame with
    | none => pure (.inr (last, none))
    | some f =>
      if until_ = some f then pure (.inr (last, some f))
      else do
        update (runFrame t f)
        let next ← asks fun m => m.next f
        return .inl (some f, next)

/-- `dtor_pop`. -/
def dtorPop (t : T) (until_ : Option Nat) : Prog Fault (Mem T F P) Unit := do
  let first ← asks fun m => m.tls t
  if first = until_ then return ()
  else
    let (last, frame) ← popLoop t until_ (first, first)
    match last with
    | none => raise .nullPointer
    | some last => do
      -- the frames from the first to the last are put in front of the pool
      let pool ← demand (fun m => m.frames) .nullPointer
      update fun m => { m with next := Function.update m.next last pool, frames := some first }
      update fun m => { m with tls := Function.update m.tls t frame }

/-- A frame for `dtor_push`, from the pool or from `calloc`. -/
def takeFrame (a : Nat) (m : Mem T F P) : Nat × Mem T F P :=
  match m.frames with
  | some (some frame) => (frame, { m with frames := some (m.next frame) })
  | _ => (a, { m with
      frames := some none, next := update m.next a none, dtor := update m.dtor a none, allocated := a :: m.allocated })

/-- `dtor_push`. -/
def dtorPush (t : T) (dtor : F) (p : P) (a : Nat) : Prog Fault (Mem T F P) (Option Nat) := do
  let frame ← asks fun m => (takeFrame a m).1
  update fun m => (takeFrame a m).2
  update fun m => { m with
    next := Function.update m.next frame (m.tls t)
    dtor := Function.update m.dtor frame (some dtor)
    p := Function.update m.p frame p
    tls := Function.update m.tls t (some frame) }
  asks fun m => m.next frame

/-- The loop of `dtor_remove`. -/
def removeLoop (dtor : F) (p : P) : Option Nat → Prog Fault (Mem T F P) Unit :=
  loop fun frame =>
    match frame with
    | none => pure (.inr ())
    | some f => do
      let same ← asks fun m => decide (m.dtor f = some dtor ∧ m.p f = p)
      if same then
        update fun m => { m with dtor := Function.update m.dtor f none }
        return .inr ()
      else
        let next ← asks fun m => m.next f
        return .inl next

/-- `dtor_remove`. -/
def dtorRemove (t : T) (dtor : F) (p : P) : Prog Fault (Mem T F P) Unit := do
  let frame ← asks fun m => m.tls t
  removeLoop dtor p frame

/-- A call and what it returns; only `dtor_push` returns something. -/
def call : Call T F P → Prog Fault (Mem T F P) (Option Nat)
  | .push t dtor p a => dtorPush t dtor p a
  | .remove t dtor p => dtorRemove t dtor p >>= fun _ => pure none
  | .pop t until_ => dtorPop t until_ >>= fun _ => pure none

/-! ### The abstract stacks -/

variable (T F P) in
/-- An element of a stack: its frame, and the destructor unless that was removed. -/
structure Entry where
  frame : Nat
  live : Option (F × P)

variable (T F P) in
/-- The stack of each thread, newest first, the frames of the pool, those given out by `calloc`, and the destructors
    that were run. -/
structure Stacks where
  stack : T → List (Entry F P)
  pool : List Nat
  allocated : List Nat
  ran : List (T × F × P)

/-- The newest entry with the destructor loses it. -/
def removeNewest (dtor : F) (p : P) : List (Entry F P) → List (Entry F P)
  | [] => []
  | e :: es => if e.live = some (dtor, p) then { e with live := none } :: es else e :: removeNewest dtor p es

/-- The entries above a frame. -/
def above (until_ : Option Nat) (es : List (Entry F P)) : List (Entry F P) :=
  es.takeWhile fun e => until_ ≠ some e.frame

/-- The entries from a frame on. -/
def below (until_ : Option Nat) (es : List (Entry F P)) : List (Entry F P) :=
  es.dropWhile fun e => until_ ≠ some e.frame

/-- The top of a stack. -/
def top (es : List (Entry F P)) : Option Nat := es.head?.map Entry.frame

/-- What a call returns, and the stacks after it. -/
def spec (s : Stacks T F P) : Call T F P → Option Nat × Stacks T F P
  | .push t dtor p a =>
    match s.pool with
    | frame :: pool => (top (s.stack t), { s with
        stack := update s.stack t (⟨frame, some (dtor, p)⟩ :: s.stack t), pool := pool })
    | [] => (top (s.stack t), { s with
        stack := update s.stack t (⟨a, some (dtor, p)⟩ :: s.stack t), allocated := a :: s.allocated })
  | .remove t dtor p => (none, { s with stack := update s.stack t (removeNewest dtor p (s.stack t)) })
  | .pop t until_ => (none, { s with
      stack := update s.stack t (below until_ (s.stack t))
      pool := (above until_ (s.stack t)).map Entry.frame ++ s.pool
      ran := s.ran ++ ((above until_ (s.stack t)).filterMap Entry.live).map fun d => (t, d) })

/-- A pop goes down to a frame of the stack or to the bottom, and `calloc` does not give out an address twice. -/
def Valid (s : Stacks T F P) : Call T F P → Prop
  | .push _ _ _ a => s.pool = [] → a ∉ s.allocated
  | .remove _ _ _ => True
  | .pop t until_ => until_ = none ∨ ∃ e ∈ s.stack t, until_ = some e.frame

/-- The frames of a stack. -/
def Stacks.frames (s : Stacks T F P) (t : T) : List Nat := (s.stack t).map Entry.frame

/-- No frame is in two places of the stacks and the pool. -/
structure Apart (lists : T → List Nat) (cache issued : List Nat) : Prop where
  pool : cache.Nodup
  stack : ∀ t, (lists t).Nodup
  live : ∀ t, ∀ f ∈ lists t, f ∉ cache
  threads : ∀ t t', ∀ f ∈ lists t, f ∈ lists t' → t = t'
  allocated : (∀ f ∈ cache, f ∈ issued) ∧ ∀ t, ∀ f ∈ lists t, f ∈ issued

/-- No frame of the stacks is in two places. -/
def Stacks.Apart (s : Stacks T F P) : Prop := Dtor.Apart s.frames s.pool s.allocated

/-- The memory has the destructor of the entry. -/
def HasEntry (m : Mem T F P) (e : Entry F P) : Prop := e.live = (m.dtor e.frame).map fun dtor => (dtor, m.p e.frame)

/-- The memory is as the stacks say: the links lead from the top of each stack through its frames to the bottom, and
    through the pool, and the frames have the destructors. -/
structure Represents (m : Mem T F P) (s : Stacks T F P) : Prop where
  stack : ∀ t, Chain m.next (m.tls t) (s.frames t) none
  entry : ∀ t, ∀ e ∈ s.stack t, HasEntry m e
  pool : Chain m.next (m.frames.getD none) s.pool none
  frames : m.frames = none → ∀ t, s.stack t = []
  allocated : m.allocated = s.allocated
  ran : m.ran = s.ran

/-- Nothing has been pushed yet. -/
def noStacks : Stacks T F P := ⟨fun _ => [], [], [], []⟩

/-- Memory before the first call. -/
def boot (next : Nat → Option Nat) (dtor : Nat → Option F) (p : Nat → P) : Mem T F P :=
  ⟨next, dtor, p, none, fun _ => none, [], []⟩

variable {m : Mem T F P} {s : Stacks T F P} {t : T}

/-! ### Frames -/

section Frames
variable {lists : T → List Nat} {cache issued : List Nat} {f : Nat}

/-- A frame that is in no stack and not in the pool. -/
structure Free (lists : T → List Nat) (cache issued : List Nat) (f : Nat) : Prop where
  pool : f ∉ cache
  stack : ∀ t, f ∉ lists t
  allocated : f ∈ issued

omit [DecidableEq F] [DecidableEq P]

/-- A free frame is put on a stack. -/
lemma Apart.push (apart : Apart lists cache issued) (free : Free lists cache issued f) :
    Apart (update lists t (f :: lists t)) cache issued := by
  -- the frames of a stack are those that it had, and the new one
  have mem : ∀ t' x, x ∈ update lists t (f :: lists t) t' → (t' = t ∧ x = f) ∨ x ∈ lists t' := by
    intro t' x hx
    by_cases e : t' = t
    · rw [e, update_self] at hx
      rcases List.mem_cons.mp hx with hx | hx
      · exact .inl ⟨e, hx⟩
      · rw [e]
        exact .inr hx
    · rw [update_of_ne e] at hx
      exact .inr hx
  refine ⟨apart.pool, fun t' => ?_, fun t' x hx => ?_, fun t1 t2 x h1 h2 => ?_, apart.allocated.1, fun t' x hx => ?_⟩
  · by_cases e : t' = t
    · rw [e, update_self]
      exact List.nodup_cons.mpr ⟨free.stack t, apart.stack t⟩
    · rw [update_of_ne e]
      exact apart.stack t'
  · rcases mem t' x hx with ⟨-, rfl⟩ | hx
    · exact free.pool
    · exact apart.live t' x hx
  · rcases mem t1 x h1 with ⟨rfl, rfl⟩ | old1
    · rcases mem t2 x h2 with ⟨rfl, -⟩ | old2
      · rfl
      · exact absurd old2 (free.stack t2)
    · rcases mem t2 x h2 with ⟨rfl, rfl⟩ | old2
      · exact absurd old1 (free.stack t1)
      · exact apart.threads t1 t2 x old1 old2
  · rcases mem t' x hx with ⟨-, rfl⟩ | hx
    · exact free.allocated
    · exact apart.allocated.2 t' x hx

omit [DecidableEq T] in
/-- The frame of an entry of one thread is not a frame of another one. -/
lemma Stacks.Apart.other_frame (apart : s.Apart) {t t' : T} {e : Entry F P} (he : e ∈ s.stack t') (ne : t' ≠ t) :
    e.frame ∉ s.frames t :=
  fun hf => ne (apart.threads t' t e.frame (List.mem_map_of_mem he) hf)

/-- The upper part of a stack goes to the pool. -/
lemma Apart.pop (apart : Apart lists cache issued) {hi lo : List Nat} (h : lists t = hi ++ lo) :
    Apart (update lists t lo) (hi ++ cache) issued := by
  have nodup := apart.stack t
  rw [h, List.nodup_append] at nodup
  obtain ⟨nodup_hi, nodup_lo, disjoint⟩ := nodup
  have up : ∀ x ∈ hi, x ∈ lists t := by
    intro x hx
    rw [h]
    exact List.mem_append_left lo hx
  -- the frames of a stack are among those that it had
  have mem : ∀ t' x, x ∈ update lists t lo t' → x ∈ lists t' ∧ x ∉ hi := by
    intro t' x hx
    by_cases e : t' = t
    · rw [e, update_self] at hx
      rw [e, h]
      exact ⟨List.mem_append_right hi hx, fun hh => disjoint x hh x hx rfl⟩
    · rw [update_of_ne e] at hx
      exact ⟨hx, fun hh => e (apart.threads t' t x hx (up x hh))⟩
  refine ⟨?_, fun t' => ?_, fun t' x hx hp => ?_, fun t1 t2 x h1 h2 => ?_, fun x hx => ?_, fun t' x hx => ?_⟩
  · refine List.nodup_append.mpr ⟨nodup_hi, apart.pool, fun x hx y hy e => ?_⟩
    rw [e] at hx
    exact apart.live t y (up y hx) hy
  · by_cases e : t' = t
    · rw [e, update_self]
      exact nodup_lo
    · rw [update_of_ne e]
      exact apart.stack t'
  · obtain ⟨old, new⟩ := mem t' x hx
    rcases List.mem_append.mp hp with hp | hp
    · exact new hp
    · exact apart.live t' x old hp
  · exact apart.threads t1 t2 x (mem t1 x h1).1 (mem t2 x h2).1
  · rcases List.mem_append.mp hx with hx | hx
    · exact apart.allocated.2 t x (up x hx)
    · exact apart.allocated.1 x hx
  · exact apart.allocated.2 t' x (mem t' x hx).1

/-- The frames when one stack changes. -/
lemma frames_update (s : Stacks T F P) (t : T) (es : List (Entry F P)) (pool allocated : List Nat)
    (ran : List (T × F × P)) :
    Stacks.frames ⟨update s.stack t es, pool, allocated, ran⟩ = update s.frames t (es.map Entry.frame) := by
  funext t'
  by_cases e : t' = t
  · rw [e, update_self]
    show List.map _ (update s.stack t es t) = _
    rw [update_self]
  · rw [update_of_ne e]
    show List.map _ (update s.stack t es t') = _
    rw [update_of_ne e]
    rfl

omit [DecidableEq T]

/-- An entry depends on the destructor of its frame. -/
lemma HasEntry.congr {m' : Mem T F P} {e : Entry F P} (h : HasEntry m e) (dtor : m'.dtor e.frame = m.dtor e.frame)
    (p : m'.p e.frame = m.p e.frame) : HasEntry m' e := by
  rw [HasEntry, dtor, p]
  exact h

/-- A chain starts at the top of the stack. -/
lemma top_of_chain {next : Nat → Option Nat} {a : Option Nat} {es : List (Entry F P)}
    (h : Chain next a (es.map Entry.frame) none) : a = top es := by
  cases es with
  | nil => exact h
  | cons e es => exact h.1

/-- The thread-local storage has the top of the stack. -/
lemma Represents.tls_top (h : Represents m s) (t : T) : m.tls t = top (s.stack t) := top_of_chain (h.stack t)

end Frames

/-! ### Pushing -/

/-- The frame `f` was taken for a push, with the memory `m1` and the stacks `s1` then: it is free, and the push puts it on
    the stack. -/
structure Taken (m : Mem T F P) (s : Stacks T F P) (t : T) (dtor : F) (p : P) (a f : Nat) (m1 : Mem T F P)
    (s1 : Stacks T F P) : Prop where
  take : takeFrame a m = (f, m1)
  represents : Represents m1 s1
  apart : s1.Apart
  free : Free s1.frames s1.pool s1.allocated f
  frames : m1.frames ≠ none
  stack : s1.stack = s.stack
  push : spec s (.push t dtor p a) =
    (top (s.stack t), { s1 with stack := update s1.stack t (⟨f, some (dtor, p)⟩ :: s1.stack t) })

/-- The first frame of the pool is taken. -/
lemma taken_pool (h : Represents m s) (apart : s.Apart) (dtor : F) (p : P) (a : Nat) {f : Nat} {rest : List Nat}
    (hp : s.pool = f :: rest) :
    Taken m s t dtor p a f { m with frames := some (m.next f) } { s with pool := rest } := by
  have pool := h.pool
  rw [hp] at pool
  obtain ⟨head, links⟩ := pool
  have frames : m.frames = some (some f) := by
    cases hf : m.frames with
    | none =>
      rw [hf] at head
      cases head
    | some q =>
      rw [hf] at head
      exact congrArg some head
  have nodup := apart.pool
  rw [hp, List.nodup_cons] at nodup
  have mem : f ∈ s.pool := by
    rw [hp]
    exact List.mem_cons_self
  have rest_sub : ∀ x ∈ rest, x ∈ s.pool := by
    intro x hx
    rw [hp]
    exact List.mem_cons_of_mem f hx
  refine ⟨by rw [takeFrame, frames], ?_, ?_, ?_, nofun, rfl, by rw [spec, hp]⟩
  · exact ⟨h.stack, h.entry, links, nofun, h.allocated, h.ran⟩
  · exact ⟨nodup.2, apart.stack, fun t f hf hr => apart.live t f hf (rest_sub f hr), apart.threads,
      fun f hf => apart.allocated.1 f (rest_sub f hf), apart.allocated.2⟩
  · exact ⟨nodup.1, fun t hf => apart.live t f hf mem, apart.allocated.1 f mem⟩

/-- The pool is empty, and a frame comes from `calloc`. -/
lemma taken_calloc (h : Represents m s) (apart : s.Apart) (dtor : F) (p : P) {a : Nat} (hp : s.pool = [])
    (fresh : a ∉ s.allocated) :
    Taken m s t dtor p a a { m with
        frames := some none, next := update m.next a none, dtor := update m.dtor a none, allocated := a :: m.allocated }
      { s with allocated := a :: s.allocated } := by
  have pool := h.pool
  rw [hp] at pool
  have unused : ∀ t, a ∉ s.frames t := fun t ha => fresh (apart.allocated.2 t a ha)
  refine ⟨?_, ?_, ?_, ?_, nofun, rfl, by rw [spec, hp]⟩
  · rw [takeFrame]
    cases hf : m.frames with
    | none => rfl
    | some q =>
      rw [hf] at pool
      cases pool
      rfl
  · refine ⟨fun t => (h.stack t).update (unused t) none, fun t e he => ?_, ?_, nofun, ?_, h.ran⟩
    · have ne : e.frame ≠ a := by
        intro e'
        apply unused t
        rw [← e']
        exact List.mem_map_of_mem he
      exact (h.entry t e he).congr (update_of_ne ne ..) rfl
    · show Chain _ none s.pool none
      rw [hp]
      rfl
    · exact congrArg (a :: ·) h.allocated
  · refine ⟨apart.pool, apart.stack, apart.live, apart.threads, fun f hf => ?_, fun t f hf => ?_⟩
    · exact List.mem_cons_of_mem a (apart.allocated.1 f hf)
    · exact List.mem_cons_of_mem a (apart.allocated.2 t f hf)
  · refine ⟨?_, unused, List.mem_cons_self⟩
    show a ∉ s.pool
    rw [hp]
    exact List.not_mem_nil

/-- A frame for a new entry is taken from the pool, or allocated. -/
lemma takeFrame_taken (h : Represents m s) (apart : s.Apart) (dtor : F) (p : P) {a : Nat}
    (fresh : s.pool = [] → a ∉ s.allocated) : ∃ f m1 s1, Taken m s t dtor p a f m1 s1 := by
  cases hp : s.pool with
  | cons f rest => exact ⟨f, _, _, taken_pool h apart dtor p a hp⟩
  | nil => exact ⟨a, _, _, taken_calloc h apart dtor p hp (fresh hp)⟩

/-- What `dtor_push` does. -/
lemma dtorPush_returns (h : Represents m s) (apart : s.Apart) (dtor : F) (p : P) {a : Nat}
    (fresh : s.pool = [] → a ∉ s.allocated) :
    ∃ m', Returns (dtorPush t dtor p a) m (spec s (.push t dtor p a)).1 m' ∧
      Represents m' (spec s (.push t dtor p a)).2 ∧ (spec s (.push t dtor p a)).2.Apart := by
  obtain ⟨f, m1, s1, take, h1, apart1, free, frames, same, push⟩ := takeFrame_taken (t := t) h apart dtor p fresh
  rw [push]
  refine ⟨{ m1 with
    next := Function.update m1.next f (m1.tls t)
    dtor := Function.update m1.dtor f (some dtor)
    p := Function.update m1.p f p
    tls := Function.update m1.tls t (some f) }, ?_, ?_, ?_⟩
  · refine .bind (.asks _ _) (.bind (.update _ _) (.bind (.update _ _) ?_))
    rw [take]
    have result : Function.update m1.next f (m1.tls t) f = top (s.stack t) := by
      rw [update_self, h1.tls_top, same]
    rw [← result]
    exact .asks _ _
  · refine ⟨fun t' => ?_, fun t' e he => ?_, h1.pool.update free.pool _, fun none => absurd none frames, h1.allocated,
      h1.ran⟩
    · rw [frames_update]
      by_cases e : t' = t
      · rw [e, update_self]
        refine ⟨update_self .., ?_⟩
        dsimp only
        rw [update_self]
        exact (h1.stack t).update (free.stack t) _
      · rw [update_of_ne e]
        dsimp only
        rw [update_of_ne e]
        exact (h1.stack t').update (free.stack t') _
    · -- the new entry, or one that was there and has another frame
      have old : e ∈ s1.stack t' → HasEntry m1 e ∧ e.frame ≠ f := by
        intro he
        refine ⟨h1.entry t' e he, fun eq => free.stack t' ?_⟩
        rw [← eq]
        exact List.mem_map_of_mem he
      have was : (e = ⟨f, some (dtor, p)⟩) ∨ e ∈ s1.stack t' := by
        dsimp only at he
        by_cases eq : t' = t
        · rw [eq] at he ⊢
          rw [update_self] at he
          exact List.mem_cons.mp he
        · rw [update_of_ne eq] at he
          exact .inr he
      rcases was with rfl | he
      · rw [HasEntry]
        simp only [update_self, Option.map_some]
      · obtain ⟨has, ne⟩ := old he
        exact has.congr (update_of_ne ne ..) (update_of_ne ne ..)
  · rw [Stacks.Apart, frames_update]
    exact apart1.push free

/-! ### Removing -/

omit [DecidableEq T] in
/-- Removing an entry leaves its frame in place. -/
lemma frames_removeNewest (dtor : F) (p : P) (es : List (Entry F P)) :
    (removeNewest dtor p es).map Entry.frame = es.map Entry.frame := by
  induction es with
  | nil => rfl
  | cons e es ih =>
    rw [removeNewest]
    split_ifs
    · rfl
    · rw [List.map_cons, List.map_cons, ih]

omit [DecidableEq T] [DecidableEq F] [DecidableEq P] in
/-- The frames of the other entries are others. -/
lemma frame_ne {e e' : Entry F P} {es : List (Entry F P)} (fresh : e.frame ∉ es.map Entry.frame) (mem : e' ∈ es) :
    e'.frame ≠ e.frame := by
  intro eq
  apply fresh
  rw [← eq]
  exact List.mem_map_of_mem mem

omit [DecidableEq T] in
/-- The loop of `dtor_remove` takes the destructor from the newest entry that has it. -/
lemma removeLoop_returns {es : List (Entry F P)} {a : Option Nat} (dtor : F) (p : P)
    (chain : Chain m.next a (es.map Entry.frame) none) (nodup : (es.map Entry.frame).Nodup)
    (entries : ∀ e ∈ es, HasEntry m e) :
    ∃ d, Returns (removeLoop dtor p a) m () { m with dtor := d } ∧
      (∀ f, f ∉ es.map Entry.frame → d f = m.dtor f) ∧
      ∀ e ∈ removeNewest dtor p es, HasEntry { m with dtor := d } e := by
  induction es generalizing a with
  | nil =>
    cases chain
    exact ⟨m.dtor, .exit (.pure _ _), fun _ _ => rfl, nofun⟩
  | cons e es ih =>
    obtain ⟨rfl, chain⟩ := chain
    obtain ⟨fresh, nodup⟩ := List.nodup_cons.mp nodup
    have entry := entries e List.mem_cons_self
    by_cases same : m.dtor e.frame = some dtor ∧ m.p e.frame = p
    · refine ⟨update m.dtor e.frame none, ?_, fun f hf => ?_, fun e' he => ?_⟩
      · refine .exit (.bind (.asks _ _) ?_)
        rw [decide_eq_true same]
        exact .bind (.update _ _) (.pure _ _)
      · refine update_of_ne (fun eq => hf ?_) ..
        rw [eq]
        exact List.mem_cons_self
      · have live : e.live = some (dtor, p) := by
          rw [entry, same.1, Option.map_some, same.2]
        rw [removeNewest, if_pos live] at he
        rcases List.mem_cons.mp he with rfl | he
        · rw [HasEntry]
          simp only [update_self, Option.map_none]
        · have ne : e'.frame ≠ e.frame := frame_ne fresh he
          exact (entries e' (List.mem_cons_of_mem e he)).congr (update_of_ne ne ..) rfl
    · obtain ⟨d, run, others, has⟩ := ih chain nodup fun e' he => entries e' (List.mem_cons_of_mem e he)
      refine ⟨d, ?_, fun f hf => ?_, fun e' he => ?_⟩
      · refine .turn (.bind (.asks _ _) ?_) run
        rw [decide_eq_false same]
        exact .bind (.asks _ _) (.pure _ _)
      · exact others f fun mem => hf (List.mem_cons_of_mem _ mem)
      · have live : e.live ≠ some (dtor, p) := by
          intro live
          rw [entry] at live
          obtain ⟨d', hd, eq⟩ := Option.map_eq_some_iff.mp live
          cases eq
          exact same ⟨hd, rfl⟩
        rw [removeNewest, if_neg live] at he
        rcases List.mem_cons.mp he with rfl | he
        · exact entry.congr (others _ fresh) rfl
        · exact has e' he

/-- What `dtor_remove` does. -/
lemma dtorRemove_returns (h : Represents m s) (apart : s.Apart) (dtor : F) (p : P) :
    ∃ m', Returns (dtorRemove t dtor p) m () m' ∧ Represents m' (spec s (.remove t dtor p)).2 ∧
      (spec s (.remove t dtor p)).2.Apart := by
  obtain ⟨d, run, others, has⟩ := removeLoop_returns dtor p (h.stack t) (apart.stack t) (h.entry t)
  have frames : (spec s (.remove t dtor p)).2.frames = s.frames := by
    rw [spec, frames_update, frames_removeNewest]
    exact update_eq_self ..
  refine ⟨{ m with dtor := d }, .bind (.asks _ _) run, ?_, ?_⟩
  · refine ⟨?_, fun t' e he => ?_, h.pool, fun none t' => ?_, h.allocated, h.ran⟩
    · rw [frames]
      exact h.stack
    · by_cases eq : t' = t
      · subst eq
        have he' : e ∈ update s.stack t' (removeNewest dtor p (s.stack t')) t' := he
        rw [update_self] at he'
        exact has e he'
      · have he' : e ∈ update s.stack t (removeNewest dtor p (s.stack t)) t' := he
        rw [update_of_ne eq] at he'
        exact (h.entry t' e he').congr (others _ (apart.other_frame he' eq)) rfl
    · show update s.stack t (removeNewest dtor p (s.stack t)) t' = []
      by_cases eq : t' = t
      · rw [eq, update_self, h.frames none t]
        rfl
      · rw [update_of_ne eq]
        exact h.frames none t'
  · rw [Stacks.Apart, frames]
    exact apart

/-! ### Popping -/

omit [DecidableEq T] [DecidableEq F] [DecidableEq P] in
/-- Running a frame clears it, and runs its destructor if there is one. -/
lemma runFrame_eq {e : Entry F P} (h : HasEntry m e) :
    runFrame t e.frame m = { m with
      dtor := update m.dtor e.frame none, ran := m.ran ++ e.live.toList.map fun d => (t, d) } := by
  rw [runFrame]
  rw [HasEntry] at h
  cases hd : m.dtor e.frame with
  | none =>
    have same : update m.dtor e.frame none = m.dtor := by rw [← hd, update_eq_self]
    rw [hd] at h
    rw [same, h, Option.map_none, Option.toList_none, List.map_nil, List.append_nil]
  | some dtor =>
    rw [hd] at h
    rw [h]
    rfl

omit [DecidableEq T] [DecidableEq F] [DecidableEq P] in
/-- The loop of `dtor_pop` runs the destructors of the entries above, newest first, and ends at the frame. -/
lemma popLoop_returns (t : T) {es : List (Entry F P)} {a until_ : Option Nat} (last : Option Nat)
    (chain : Chain m.next a (es.map Entry.frame) until_) (nodup : (es.map Entry.frame).Nodup)
    (away : ∀ e ∈ es, until_ ≠ some e.frame) (entries : ∀ e ∈ es, HasEntry m e) :
    ∃ d, Returns (popLoop t until_ (last, a)) m ((es.getLast?.map Entry.frame).or last, until_)
        { m with dtor := d, ran := m.ran ++ (es.filterMap Entry.live).map fun d => (t, d) } ∧
      ∀ f, f ∉ es.map Entry.frame → d f = m.dtor f := by
  induction es generalizing m a last with
  | nil =>
    cases chain
    refine ⟨m.dtor, ?_, fun _ _ => rfl⟩
    rw [List.filterMap_nil, List.map_nil, List.append_nil]
    refine .exit ?_
    cases until_ with
    | none => exact .pure _ _
    | some f => exact .ite_pos rfl (.pure _ _)
  | cons e es ih =>
    obtain ⟨rfl, chain⟩ := chain
    obtain ⟨fresh, nodup⟩ := List.nodup_cons.mp nodup
    have first := runFrame_eq (t := t) (entries e List.mem_cons_self)
    have other : ∀ e' ∈ es, e'.frame ≠ e.frame := fun e' he => frame_ne fresh he
    have links : Chain (runFrame t e.frame m).next (m.next e.frame) (es.map Entry.frame) until_ := by
      rw [first]
      exact chain
    have entries' : ∀ e' ∈ es, HasEntry (runFrame t e.frame m) e' := by
      intro e' he
      rw [first]
      exact (entries e' (List.mem_cons_of_mem e he)).congr (update_of_ne (other e' he) ..) rfl
    obtain ⟨d, run, others⟩ := @ih (runFrame t e.frame m) _ (some e.frame) links nodup
      (fun e' he => away e' (List.mem_cons_of_mem e he)) entries'
    refine ⟨d, ?_, fun f hf => ?_⟩
    · have turn : Returns (popLoop t until_ (last, some e.frame)) m
          ((es.getLast?.map Entry.frame).or (some e.frame), until_)
          { runFrame t e.frame m with
            dtor := d, ran := (runFrame t e.frame m).ran ++ (es.filterMap Entry.live).map fun d => (t, d) } := by
        refine .turn (.ite_neg (away e List.mem_cons_self) ?_) run
        refine .bind (.update _ _) (.bind (.asks _ _) ?_)
        rw [first]
        exact .pure _ _
      have end_ : (es.getLast?.map Entry.frame).or (some e.frame) = ((e :: es).getLast?.map Entry.frame).or last := by
        rw [List.getLast?_cons]
        cases es.getLast? <;> rfl
      have log : (runFrame t e.frame m).ran ++ ((es.filterMap Entry.live).map fun d => (t, d)) =
          m.ran ++ ((e :: es).filterMap Entry.live).map fun d => (t, d) := by
        rw [first, List.filterMap_cons]
        dsimp only
        rw [List.append_assoc]
        cases e.live <;> rfl
      rw [end_, log, first] at turn
      exact turn
    · have ne : f ≠ e.frame := by
        rintro rfl
        exact hf List.mem_cons_self
      rw [others f fun mem => hf (List.mem_cons_of_mem _ mem), first]
      exact update_of_ne ne ..

omit [DecidableEq F] [DecidableEq P] [DecidableEq T] in
/-- The entries above the mark and those from it on are all. -/
lemma above_append_below (until_ : Option Nat) (es : List (Entry F P)) : above until_ es ++ below until_ es = es :=
  List.takeWhile_append_dropWhile

omit [DecidableEq F] [DecidableEq P] [DecidableEq T] in
/-- The mark is not above itself. -/
lemma away_above (until_ : Option Nat) (es : List (Entry F P)) : ∀ e ∈ above until_ es, until_ ≠ some e.frame := by
  intro e he
  have h := List.all_eq_true.mp List.all_takeWhile e he
  exact of_decide_eq_true h

omit [DecidableEq F] [DecidableEq P] [DecidableEq T] in
/-- The part of the stack from a frame on starts with this frame. -/
lemma top_below {until_ : Option Nat} {es : List (Entry F P)}
    (valid : until_ = none ∨ ∃ e ∈ es, until_ = some e.frame) : top (below until_ es) = until_ := by
  induction es with
  | nil =>
    rcases valid with rfl | ⟨e, he, -⟩
    · rfl
    · cases he
  | cons e es ih =>
    by_cases eq : until_ = some e.frame
    · rw [below, List.dropWhile_cons_of_neg (by simpa using eq), eq]
      rfl
    · rw [below, List.dropWhile_cons_of_pos (by simpa using eq)]
      apply ih
      rcases valid with none | ⟨e', he, rfl⟩
      · exact .inl none
      · rcases List.mem_cons.mp he with rfl | he
        · exact absurd rfl eq
        · exact .inr ⟨e', he, rfl⟩

section Pop
variable {until_ : Option Nat}

omit [DecidableEq T] [DecidableEq F] [DecidableEq P] in
/-- The frames of a stack are those above a frame, and those from it on. -/
lemma frames_split (s : Stacks T F P) (t : T) (until_ : Option Nat) :
    s.frames t = (above until_ (s.stack t)).map Entry.frame ++ (below until_ (s.stack t)).map Entry.frame := by
  rw [← List.map_append, above_append_below]
  rfl

/-- Popping keeps the frames of different threads apart. -/
lemma Stacks.Apart.pop (apart : s.Apart) (t : T) (until_ : Option Nat) : (spec s (.pop t until_)).2.Apart := by
  rw [Stacks.Apart, spec, frames_update]
  exact Dtor.Apart.pop apart (frames_split s t until_)

omit [DecidableEq T] [DecidableEq F] [DecidableEq P] in
/-- The links lead from the top of a stack to a frame of it, and from there to the bottom. -/
lemma Represents.split (h : Represents m s) (valid : until_ = none ∨ ∃ e ∈ s.stack t, until_ = some e.frame) :
    Chain m.next (m.tls t) ((above until_ (s.stack t)).map Entry.frame) until_ ∧
      Chain m.next until_ ((below until_ (s.stack t)).map Entry.frame) none := by
  have chain := h.stack t
  rw [frames_split s t until_, chain_append] at chain
  obtain ⟨c, upper, lower⟩ := chain
  cases (top_of_chain lower).trans (top_below valid)
  exact ⟨upper, lower⟩

omit [DecidableEq T] [DecidableEq F] [DecidableEq P] in
/-- An entry above the mark is one of the stack. -/
lemma mem_above {e : Entry F P} {es : List (Entry F P)} (he : e ∈ above until_ es) : e ∈ es := by
  rw [← above_append_below until_ es]
  exact List.mem_append_left _ he

omit [DecidableEq T] [DecidableEq F] [DecidableEq P] in
/-- An entry from the mark on is one of the stack. -/
lemma mem_below {e : Entry F P} {es : List (Entry F P)} (he : e ∈ below until_ es) : e ∈ es := by
  rw [← above_append_below until_ es]
  exact List.mem_append_right _ he

/-- The memory after a pop: `last` is the lowest frame that was popped, and `d` has the destructors that are left. -/
def popped (m : Mem T F P) (t : T) (until_ : Option Nat) (hi : List (Entry F P)) (last : Nat) (pool : Option Nat)
    (d : Nat → Option F) : Mem T F P :=
  { m with
    next := update m.next last pool
    dtor := d
    frames := some (m.tls t)
    tls := update m.tls t until_
    ran := m.ran ++ (hi.filterMap Entry.live).map fun d => (t, d) }

/-- The frames that were popped lead to the pool, and all others are as they were. -/
lemma popped_represents (h : Represents m s) (apart : s.Apart)
    (valid : until_ = none ∨ ∃ e ∈ s.stack t, until_ = some e.frame) {es : List (Entry F P)} {l : Entry F P}
    (concat : above until_ (s.stack t) = es ++ [l]) {pool : Option Nat} (frames : m.frames = some pool)
    {d : Nat → Option F} (others : ∀ f, f ∉ (above until_ (s.stack t)).map Entry.frame → d f = m.dtor f) :
    Represents (popped m t until_ (above until_ (s.stack t)) l.frame pool d) (spec s (.pop t until_)).2 := by
  obtain ⟨upper, lower⟩ := h.split valid
  have parts := frames_split s t until_
  have nodup := apart.stack t
  rw [parts, List.nodup_append] at nodup
  obtain ⟨nodup, -, disjoint⟩ := nodup
  have lmem : l ∈ above until_ (s.stack t) := by
    rw [concat]
    exact List.mem_append_right es List.mem_cons_self
  have lframe : l.frame ∈ s.frames t := List.mem_map_of_mem (mem_above lmem)
  refine ⟨fun t' => ?_, fun t' e he => ?_, ?_, nofun, h.allocated, congrArg (· ++ _) h.ran⟩
  · rw [spec, frames_update]
    dsimp only [popped]
    by_cases eq : t' = t
    · rw [eq, update_self, update_self]
      refine lower.update (fun hl => ?_) pool
      exact disjoint _ (List.mem_map_of_mem lmem) _ hl rfl
    · rw [update_of_ne eq, update_of_ne eq]
      exact (h.stack t').update (fun hl => eq (apart.threads t' t _ hl lframe)) pool
  · have he' : e ∈ update s.stack t (below until_ (s.stack t)) t' := he
    by_cases eq : t' = t
    · rw [eq, update_self] at he'
      refine (h.entry t e (mem_below he')).congr (others _ fun hf => ?_) rfl
      exact disjoint _ hf _ (List.mem_map_of_mem he') rfl
    · rw [update_of_ne eq] at he'
      refine (h.entry t' e he').congr (others _ fun hf => apart.other_frame he' eq ?_) rfl
      rw [parts]
      exact List.mem_append_left _ hf
  · have link : Chain (update m.next l.frame pool) (m.tls t) ((above until_ (s.stack t)).map Entry.frame) pool := by
      rw [concat, List.map_append] at upper nodup ⊢
      exact upper.relink (fun hl => (List.nodup_append.mp nodup).2.2 _ hl _ List.mem_cons_self rfl) pool
    have rest := h.pool
    rw [frames] at rest
    exact chain_append.mpr ⟨pool, link, rest.update (apart.live t _ lframe) pool⟩

/-- `dtor_pop` when there are frames to pop. -/
lemma dtorPop_concat (h : Represents m s) (apart : s.Apart)
    (valid : until_ = none ∨ ∃ e ∈ s.stack t, until_ = some e.frame) {es : List (Entry F P)} {l : Entry F P}
    (concat : above until_ (s.stack t) = es ++ [l]) :
    ∃ m', Returns (dtorPop t until_) m () m' ∧ Represents m' (spec s (.pop t until_)).2 ∧ m'.tls t = until_ := by
  obtain ⟨upper, -⟩ := h.split valid
  have nodup := apart.stack t
  rw [frames_split s t until_, List.nodup_append] at nodup
  have lmem : l ∈ above until_ (s.stack t) := by
    rw [concat]
    exact List.mem_append_right es List.mem_cons_self
  obtain ⟨d, run, others⟩ := popLoop_returns t (m.tls t) upper nodup.1 (away_above until_ _)
    fun e he => h.entry t e (mem_above he)
  have last : ((above until_ (s.stack t)).getLast?.map Entry.frame).or (m.tls t) = some l.frame := by
    rw [concat, List.getLast?_concat]
    rfl
  rw [last] at run
  have nonempty : m.tls t ≠ until_ := by
    cases up : above until_ (s.stack t) with
    | nil =>
      rw [up] at lmem
      cases lmem
    | cons x xs =>
      rw [up] at upper
      rw [upper.1]
      refine Ne.symm (away_above until_ (s.stack t) x ?_)
      rw [up]
      exact List.mem_cons_self
  obtain ⟨pool, frames⟩ : ∃ pool, m.frames = some pool := by
    cases hf : m.frames with
    | none =>
      have none := mem_above lmem
      rw [h.frames hf t] at none
      cases none
    | some pool => exact ⟨pool, rfl⟩
  refine ⟨_, ?_, popped_represents h apart valid concat frames others, update_self ..⟩
  refine .bind (.asks _ _) (.ite_neg nonempty (.bind run ?_))
  exact .bind (.demand frames) (.bind (.update _ _) (.update _ _))

/-- What `dtor_pop` does. -/
lemma dtorPop_returns (h : Represents m s) (apart : s.Apart)
    (valid : until_ = none ∨ ∃ e ∈ s.stack t, until_ = some e.frame) :
    ∃ m', Returns (dtorPop t until_) m () m' ∧ Represents m' (spec s (.pop t until_)).2 ∧ m'.tls t = until_ := by
  rcases List.eq_nil_or_concat (above until_ (s.stack t)) with nil | ⟨es, l, concat⟩
  · -- nothing is above the frame
    obtain ⟨upper, -⟩ := h.split valid
    rw [nil] at upper
    have split := above_append_below until_ (s.stack t)
    rw [nil, List.nil_append] at split
    have same : (spec s (.pop t until_)).2 = s := by
      simp only [spec, nil, split, update_eq_self, List.map_nil, List.nil_append, List.filterMap_nil, List.append_nil]
    rw [same]
    exact ⟨m, .bind (.asks _ _) (.ite_pos upper (.pure _ _)), h, upper⟩
  · rw [List.concat_eq_append] at concat
    exact dtorPop_concat h apart valid concat

end Pop

/-! ### Sequences of calls -/

/-- The memory is as the stacks say, no frame is in two places, and a pop runs the destructors above the frame that it
    goes down to, newest first, and leaves the stack there. -/
structure Sound (m : Mem T F P) (s : Stacks T F P) : Prop where
  represents : Represents m s
  apart : s.Apart
  pops : ∀ t until_, Valid s (.pop t until_) → ∃ m', Returns (dtorPop t until_) m () m' ∧ m'.tls t = until_ ∧
    m'.ran = m.ran ++ ((above until_ (s.stack t)).filterMap Entry.live).map fun d => (t, d)

/-- The state after a call is sound. -/
lemma Sound.of (h : Represents m s) (apart : s.Apart) : Sound m s := by
  refine ⟨h, apart, fun t until_ valid => ?_⟩
  obtain ⟨m', run, h', tls⟩ := dtorPop_returns h apart valid
  refine ⟨m', run, tls, ?_⟩
  rw [h'.ran, h.ran]
  rfl

/-- Every call does what the stacks say. -/
lemma call_returns (h : Sound m s) (c : Call T F P) (valid : Valid s c) :
    ∃ m', Returns (call c) m (spec s c).1 m' ∧ Sound m' (spec s c).2 := by
  obtain ⟨h, apart, -⟩ := h
  cases c with
  | push t dtor p a =>
    obtain ⟨m', run, h', apart'⟩ := dtorPush_returns (t := t) h apart dtor p valid
    exact ⟨m', run, .of h' apart'⟩
  | remove t dtor p =>
    obtain ⟨m', run, h', apart'⟩ := dtorRemove_returns (t := t) h apart dtor p
    exact ⟨m', .bind run (.pure _ _), .of h' apart'⟩
  | pop t until_ =>
    obtain ⟨m', run, h', -⟩ := dtorPop_returns h apart valid
    exact ⟨m', .bind run (.pure _ _), .of h' (apart.pop t until_)⟩

/-- Without threads that have pushed anything, everything is in order. -/
lemma boot_sound (next : Nat → Option Nat) (dtor : Nat → Option F) (p : Nat → P) :
    Sound (boot next dtor p : Mem T F P) noStacks := by
  refine .of ⟨fun _ => rfl, nofun, rfl, fun _ _ => rfl, rfl, rfl⟩ ⟨List.nodup_nil, fun _ => List.nodup_nil, ?_, ?_, ?_⟩
  · exact fun _ _ h => absurd h List.not_mem_nil
  · exact fun _ _ _ h => absurd h List.not_mem_nil
  · exact ⟨fun _ h => absurd h List.not_mem_nil, fun _ _ h => absurd h List.not_mem_nil⟩

/-- Any sequence of calls, by any number of threads, keeps the memory as the stacks say. -/
theorem dtors_simulate (next : Nat → Option Nat) (dtor : Nat → Option F) (p : Nat → P) (calls : List (Call T F P))
    (allowed : Allowed spec Valid noStacks calls) :
    Simulates call spec (fun _ _ m s => Sound m s) (boot next dtor p) noStacks calls := by
  refine simulates_of_allowed (R := Sound) ?_ (boot_sound next dtor p) allowed
  intro m s c h valid
  obtain ⟨m', run, h'⟩ := call_returns h c valid
  exact ⟨m', run, h', h'⟩

instance (s : Stacks T F P) : ∀ c, Decidable (Valid s c)
  | .push _ _ _ a => inferInstanceAs (Decidable (s.pool = [] → a ∉ s.allocated))
  | .remove _ _ _ => inferInstanceAs (Decidable True)
  | .pop t until_ => inferInstanceAs (Decidable (until_ = none ∨ ∃ e ∈ s.stack t, until_ = some e.frame))

/-- Two threads push, one of them removes and pops, and the other one gets a frame of the first. -/
def twoThreads : List (Call Nat Nat Nat) :=
  [.push 0 7 70 100, .push 0 8 80 101, .push 1 9 90 102, .push 0 7 71 103, .remove 0 8 80, .pop 0 (some 100),
    .push 1 7 72 104, .pop 1 none, .pop 0 none]

/-- Two threads that push, remove and pop. -/
theorem dtors_twoThreads :
    Simulates call spec (fun _ _ m s => Sound m s) (boot (fun _ => none) (fun _ => none) fun _ => 0) noStacks
      twoThreads :=
  dtors_simulate _ _ _ twoThreads (by decide)

end Code

end Twcos.Dtor
