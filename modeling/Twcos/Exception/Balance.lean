import Twcos.Exception.Ledger

/-!
# Frame balance

When a `KTRY` statement is left, the chain of frames is what it was before (`block_balanced`), and the destructors that
were pushed in it have been run or removed. The frames of a thread match the loops in what it has left to do
(`Matched`), so the loop of a block always finds its own frame at the top, and the frame says how far the destructors
are to be popped.
-/

namespace Twcos.Exception
open Twcos.Run

variable {A F D : Type} [DecidableEq D]

/-- The frame is that of the loop of a block, with this left to do. -/
structure Frame.Of (f : Frame A F D) (b : Block (Stmt A F D)) (todo : List (Item A F D)) : Prop where
  site : f.site = b.site
  env : f.env = .loop b :: todo

/-- The frames are those of the loops in what is left to do. -/
inductive Matched : List (Item A F D) → List (Frame A F D) → Prop where
  | nil : Matched [] []
  | stmt {p todo fs} : Matched todo fs → Matched (.stmt p :: todo) fs
  | loop {b todo f fs} : f.Of b todo → Matched todo fs → Matched (.loop b :: todo) (f :: fs)

/-- The frames go down the stack of destructors, from a height on. -/
inductive Descends : Nat → List (Frame A F D) → Prop where
  | nil {h} : Descends h []
  | cons {h f fs} : f.dtorFrame ≤ h → Descends f.dtorFrame fs → Descends h (f :: fs)

/-- The destructor that an event tells of. -/
def Event.dtor? : Event A D → Option D
  | .dtor d => some d
  | _ => none

/-- Control goes on with what is left to do, or an exception goes to the frames. -/
def Exits (todo : List (Item A F D)) (fs : List (Frame A F D)) (dtors : List (Option D)) (trace : List (Event A D))
    (s : State A F D) : Prop :=
  s = .run ⟨todo, fs, dtors, trace⟩ ∨ ∃ cause, s = exceptionThrowCause cause fs dtors trace

/-- What a step is, for a thread whose frames match: how it changes what is left to do, the frames, the destructors and
    the ledger. -/
inductive Move (t : Thread A F D) (g : Ledger D) : State A F D → Ledger D → Prop where
  | go {p rest} {ps : List (Stmt A F D)} {events} : t.todo = .stmt p :: rest → events.filterMap Event.dtor? = [] →
      Move t g (.run ⟨ps.map .stmt ++ rest, t.frames, t.dtors, t.trace ++ events⟩) g
  | push {d rest} : t.todo = .stmt (.dtorPush d) :: rest →
      Move t g (.run { t with todo := rest, dtors := some d :: t.dtors }) (g.push d)
  | enter {b rest} : t.todo = .stmt (.ktry b) :: rest →
      Move t g (.run { t with
        todo := .loop b :: rest
        frames := ⟨b.site, .new, false, .loop b :: rest, t.dtors.length, none⟩ :: t.frames }) g
  | throw {p rest cause} : t.todo = .stmt p :: rest → Move t g (exceptionThrowCause cause t.frames t.dtors t.trace) g
  | turn {b rest f f' fs} {ps : List (Stmt A F D)} {events} : t.todo = .loop b :: rest → t.frames = f :: fs → f'.Of b rest →
      f'.dtorFrame = f.dtorFrame → events.filterMap Event.dtor? = [] →
      Move t g (.run ⟨ps.map .stmt ++ .loop b :: rest, f' :: fs, t.dtors, t.trace ++ events⟩) g
  | leave {b rest f fs events s} : t.todo = .loop b :: rest → t.frames = f :: fs →
      events.filterMap Event.dtor? = popped f.dtorFrame t.dtors →
      Exits rest fs (kept f.dtorFrame t.dtors) (t.trace ++ events) s →
      Move t g s (g.pop (popCount f.dtorFrame t.dtors))
  | remove {d rest} : t.todo = .stmt (.dtorRemove d) :: rest →
      Move t g (.run { t with todo := rest, dtors := dtorRemove d t.dtors }) (g.remove d)

/-! ### What a step is -/

omit [DecidableEq D] in
/-- Looking for a clause may mark the frame as caught, and changes nothing else of it. -/
lemma catchChain_frame (f : Frame A F D) (catches : List (ExceptionDef × Stmt A F D)) (i : Nat) :
    (catchChain f catches i).1 = { f with caught := (catchChain f catches i).1.caught } := by
  induction catches generalizing i with
  | nil => rfl
  | cons c rest ih =>
    obtain ⟨m, p⟩ := c
    rw [catchChain]
    split_ifs
    · rw [exceptionMatch]
      split_ifs
      · split
        · split_ifs <;> rfl
        · rfl
      · rfl
    · exact ih (i + 1)

omit [DecidableEq D] in
/-- A handler changes of its frame only whether it caught. -/
lemma chain_frame (b : Block (Stmt A F D)) (f : Frame A F D) :
    (chain b f).1 = { f with caught := (chain b f).1.caught } := by
  have catches := catchChain_frame f b.catches 0
  rw [chain]
  split_ifs
  · rfl
  · cases h : catchChain f b.catches 0 with
    | mk f' clause =>
      rw [h] at catches
      cases clause with
      | some clause => exact catches
      | none =>
        cases b.finally? with
        | none => exact catches
        | some p =>
          dsimp only
          split_ifs
          · exact catches
          · exact catches

variable {code : F → Stmt A F D} {t : Thread A F D} {g g' : Ledger D} {s' : State A F D}

omit [DecidableEq D] in
/-- `exception_finished` with the frame of the block at the top. -/
lemma finished_top {site : Site} {f : Frame A F D} (same : f.site = site) (fs : List (Frame A F D)) :
    (∃ state, exceptionFinished site (f :: fs) = .no ({ f with state := state } :: fs)) ∨
      exceptionFinished site (f :: fs) = .yes f fs ∨
      ∃ cause, exceptionFinished site (f :: fs) = .rethrow cause f fs := by
  rw [exceptionFinished, if_neg (not_not_intro same)]
  cases f.state with
  | new => exact .inl ⟨_, rfl⟩
  | trying =>
    dsimp only
    split_ifs
    · exact .inl ⟨_, rfl⟩
    · exact .inl ⟨_, rfl⟩
  | catching => exact .inl ⟨_, rfl⟩
  | finishing =>
    cases f.cause with
    | none => exact .inr (.inl rfl)
    | some cause =>
      dsimp only
      split_ifs
      · exact .inr (.inr ⟨cause, rfl⟩)
      · exact .inr (.inl rfl)

omit [DecidableEq D] in
/-- The events of leaving a block tell of the destructors that are run. -/
lemma dtors_leave (ds : List D) (site : Site) (caught : Bool) (out : Option Cause) :
    (ds.map .dtor ++ [Event.leave site caught out] : List (Event A D)).filterMap Event.dtor? = ds := by
  rw [List.filterMap_append, List.filterMap_map]
  simp [Event.dtor?, Function.comp_def]

/-- The loop of a block, with its frame at the top. -/
lemma blockLoop_move {b : Block (Stmt A F D)} {rest : List (Item A F D)} {f : Frame A F D} {fs : List (Frame A F D)}
    (todo : t.todo = .loop b :: rest) (frames : t.frames = f :: fs) (of : f.Of b rest) :
    Move t g (blockLoop b rest t) (Ledger.next t g) := by
  rw [blockLoop, Ledger.next, todo, frames]
  rcases finished_top of.site fs with ⟨state, fin⟩ | fin | ⟨cause, fin⟩
  · have frame := chain_frame b { f with state := state }
    simp only [fin]
    generalize chain b { f with state := state } = c at frame
    obtain ⟨f', clause⟩ := c
    dsimp only at frame
    have of' : f'.Of b rest := by
      rw [frame]
      exact ⟨of.site, of.env⟩
    have height : f'.dtorFrame = f.dtorFrame := by rw [frame]
    cases clause with
    | some clause =>
      obtain ⟨clause, p⟩ := clause
      have turn : Move t g (.run ⟨[p].map Item.stmt ++ Item.loop b :: rest, f' :: fs, t.dtors,
        t.trace ++ [Event.enter b.site clause]⟩) g := .turn todo frames of' height rfl
      exact turn
    | none =>
      have turn : Move t g (.run ⟨[].map Item.stmt ++ Item.loop b :: rest, f' :: fs, t.dtors, t.trace ++ []⟩) g :=
        .turn todo frames of' height rfl
      rw [List.append_nil] at turn
      exact turn
  · simp only [fin]
    rw [List.append_assoc]
    exact .leave todo frames (dtors_leave _ _ _ _) (.inl rfl)
  · simp only [fin]
    rw [List.append_assoc]
    exact .leave todo frames (dtors_leave _ _ _ _) (.inr ⟨cause, rfl⟩)

/-- Every step of a thread whose frames match is a move. -/
lemma joint_move (matched : Matched t.todo t.frames) (h : joint code (.run t, g) = some (s', g')) :
    Move t g s' g' := by
  obtain ⟨s1, hs, e⟩ := Option.map_eq_some_iff.mp h
  cases e
  obtain ⟨todo, frames, dtors, trace⟩ := t
  dsimp only at matched ⊢
  cases matched with
  | nil => cases hs
  | loop of _ =>
    cases hs
    exact blockLoop_move rfl rfl of
  | @stmt p rest _ _ =>
    -- the statements that only change what is left to do
    have go : ∀ (ps : List (Stmt A F D)) (events : List (Event A D)), events.filterMap Event.dtor? = [] →
        Move ⟨.stmt p :: rest, frames, dtors, trace⟩ g (.run ⟨ps.map .stmt ++ rest, frames, dtors, trace ++ events⟩) g :=
      fun _ _ none => .go rfl none
    cases p with
    | skip =>
      cases hs
      have move := go [] [] rfl
      rwa [List.append_nil] at move
    | act a =>
      cases hs
      exact go [] [.act a] rfl
    | seq p q =>
      cases hs
      have move := go [p, q] [] rfl
      rwa [List.append_nil] at move
    | call f =>
      cases hs
      have move := go [code f] [] rfl
      rwa [List.append_nil] at move
    | throw type site message =>
      cases hs
      exact .throw rfl
    | dtorPush d =>
      cases hs
      exact .push rfl
    | dtorRemove d =>
      cases hs
      exact .remove rfl
    | ktry b =>
      cases hs
      exact .enter rfl

/-! ### Every state that is reached -/

/-- The ledger is right about the stack and about what has happened. -/
structure Books (dtors : List (Option D)) (trace : List (Event A D)) (g : Ledger D) : Prop where
  stack : g.stack.map Pushed.dtor = dtors
  inv : g.Inv
  ran : trace.filterMap Event.dtor? = g.ran.map Ran.dtor

/-- The frames match what is left to do, and go down the stack. -/
structure WF (t : Thread A F D) (g : Ledger D) : Prop extends Books t.dtors t.trace g where
  matched : Matched t.todo t.frames
  descends : Descends t.dtors.length t.frames

/-- What holds in every state that is reached. -/
def Good (s : State A F D × Ledger D) : Prop :=
  match s.1 with
  | .run t => WF t s.2
  | .unhandled _ dtors trace => Books dtors trace s.2
  | .panic _ => False

section Frames
variable {todo rest : List (Item A F D)} {f : Frame A F D} {fs : List (Frame A F D)} {b : Block (Stmt A F D)} {n m : Nat}

omit [DecidableEq D]

/-- Statements leave the frames that are matched. -/
lemma Matched.stmts (h : Matched todo fs) (ps : List (Stmt A F D)) : Matched (ps.map .stmt ++ todo) fs := by
  induction ps with
  | nil => exact h
  | cons p ps ih => exact .stmt ih

/-- The frame at the top is that of the first loop. -/
lemma Matched.top (h : Matched todo (f :: fs)) :
    ∃ b rest, f.Of b rest ∧ Matched rest fs ∧ rest.length < todo.length := by
  generalize hf : f :: fs = frames at h
  induction h with
  | nil => cases hf
  | stmt _ ih =>
    obtain ⟨b, rest, of, matched, lt⟩ := ih hf
    exact ⟨b, rest, of, matched, Nat.lt_succ_of_lt lt⟩
  | @loop b rest _ _ of matched =>
    cases hf
    exact ⟨b, rest, of, matched, Nat.lt_succ_self _⟩

/-- A lower bound for the frames of a stack. -/
lemma Descends.mono (h : Descends n fs) (le : n ≤ m) : Descends m fs := by
  cases h with
  | nil => exact .nil
  | cons le' rest => exact .cons (Nat.le_trans le' le) rest

end Frames

omit [DecidableEq D] in
/-- An exception goes to frames that match. -/
lemma good_throwCause {todo : List (Item A F D)} {fs : List (Frame A F D)} {dtors : List (Option D)}
    {trace : List (Event A D)} (matched : Matched todo fs) (descends : Descends dtors.length fs)
    (books : Books dtors trace g) (cause : Cause) : Good (exceptionThrowCause cause fs dtors trace, g) := by
  cases descends with
  | nil => exact books
  | cons le rest =>
    obtain ⟨b, rest', of, matched, -⟩ := matched.top
    refine ⟨books, ?_, .cons le rest⟩
    show Matched (Frame.env _) _
    rw [of.env]
    exact .loop ⟨of.site, rfl⟩ matched

/-- Removing a destructor leaves its place. -/
lemma length_dtorRemove (d : D) (dtors : List (Option D)) : (dtorRemove d dtors).length = dtors.length := by
  induction dtors with
  | nil => rfl
  | cons e es ih =>
    rw [dtorRemove]
    split_ifs
    · rfl
    · rw [List.length_cons, List.length_cons, ih]

omit [DecidableEq D] in
/-- Keeping the entries below a mark. -/
lemma length_kept {bottom : Nat} {dtors : List (Option D)} (le : bottom ≤ dtors.length) :
    (kept bottom dtors).length = bottom := by
  rw [kept, popCount, if_pos le, List.length_drop]
  omega

omit [DecidableEq D] in
/-- Popping keeps the books. -/
lemma Books.pop {dtors : List (Option D)} {trace events : List (Event A D)} (books : Books dtors trace g) {bottom : Nat}
    (dtor : events.filterMap Event.dtor? = popped bottom dtors) :
    Books (kept bottom dtors) (trace ++ events) (g.pop (popCount bottom dtors)) := by
  refine ⟨?_, books.inv.pop _, ?_⟩
  · rw [Ledger.pop_stack, List.map_drop, books.stack]
    rfl
  · rw [Ledger.pop_ran, List.filterMap_append, books.ran, dtor, books.stack]
    rfl

/-- Every move keeps what holds. -/
lemma Move.good (move : Move t g s' g') (wf : WF t g) : Good (s', g') := by
  obtain ⟨⟨stack, inv, ran⟩, matched, descends⟩ := wf
  cases move with
  | go todo none =>
    rw [todo] at matched
    cases matched with
    | stmt matched =>
      refine ⟨⟨stack, inv, ?_⟩, matched.stmts _, descends⟩
      rw [List.filterMap_append, none, List.append_nil]
      exact ran
  | @push d rest todo =>
    rw [todo] at matched
    cases matched with
    | stmt matched =>
      exact ⟨⟨congrArg (some d :: ·) stack, inv.push d, ran⟩, matched, descends.mono (Nat.le_succ _)⟩
  | enter todo =>
    rw [todo] at matched
    cases matched with
    | stmt matched => exact ⟨⟨stack, inv, ran⟩, .loop ⟨rfl, rfl⟩ matched, .cons (Nat.le_refl _) descends⟩
  | throw todo => exact good_throwCause matched descends ⟨stack, inv, ran⟩ _
  | turn todo frames of height none =>
    rw [todo, frames] at matched
    rw [frames] at descends
    cases matched with
    | loop _ matched =>
      cases descends with
      | cons le rest =>
        refine ⟨⟨stack, inv, ?_⟩, Matched.stmts (.loop of matched) _, .cons ?_ ?_⟩
        · rw [List.filterMap_append, none, List.append_nil]
          exact ran
        · rwa [height]
        · rwa [height]
  | leave todo frames dtor exits =>
    rw [todo, frames] at matched
    rw [frames] at descends
    cases matched with
    | loop _ matched =>
      cases descends with
      | cons le rest =>
        have books := Books.pop ⟨stack, inv, ran⟩ dtor
        rw [← length_kept le] at rest
        rcases exits with rfl | ⟨cause, rfl⟩
        · exact ⟨books, matched, rest⟩
        · exact good_throwCause matched rest books cause
  | @remove d rest todo =>
    rw [todo] at matched
    cases matched with
    | stmt matched =>
      refine ⟨⟨?_, inv.remove d, ran⟩, matched, ?_⟩
      · rw [← stack]
        exact Ledger.removeFrom_dtors d g.stack
      · dsimp only
        rw [length_dtorRemove]
        exact descends

/-- Every step keeps what holds. -/
lemma joint_good {s s1 : State A F D × Ledger D} (good : Good s) (h : joint code s = some s1) : Good s1 := by
  obtain ⟨s, g⟩ := s
  cases s with
  | run t => exact (joint_move good.matched h).good good
  | unhandled cause dtors trace => cases h
  | panic trace => cases h

/-! ### A block -/

/-- There is more left to do than what comes after a statement. -/
def Running (n : Nat) (s : State A F D × Ledger D) : Prop :=
  match s.1 with
  | .run t => n < t.todo.length
  | _ => False

instance (n : Nat) : (s : State A F D × Ledger D) → Decidable (Running n s)
  | (.run t, _) => inferInstanceAs (Decidable (n < t.todo.length))
  | (.unhandled _ _ _, _) => inferInstanceAs (Decidable False)
  | (.panic _, _) => inferInstanceAs (Decidable False)

section Block
variable {b : Block (Stmt A F D)} {todo : List (Item A F D)} {fs : List (Frame A F D)} {bottom : Nat}

variable (b todo fs bottom) in
/-- The frames of the loops up to that of the block, which has `fs` behind it. None of them goes below `bottom`. -/
inductive Within : List (Item A F D) → List (Frame A F D) → Prop where
  | base {f} : f.Of b todo → f.dtorFrame = bottom → Within (.loop b :: todo) (f :: fs)
  | stmt {p items frames} : Within items frames → Within (.stmt p :: items) frames
  | loop {c items f frames} : f.Of c items → bottom ≤ f.dtorFrame → Within items frames →
      Within (.loop c :: items) (f :: frames)

namespace Within
variable {items : List (Item A F D)} {frames : List (Frame A F D)}

omit [DecidableEq D]

/-- Statements stay within their block. -/
lemma stmts (h : Within b todo fs bottom items frames) (ps : List (Stmt A F D)) :
    Within b todo fs bottom (ps.map .stmt ++ items) frames := by
  induction ps with
  | nil => exact h
  | cons p ps ih => exact .stmt ih

/-- Inside a block there is something to do. -/
lemma running (h : Within b todo fs bottom items frames) : todo.length < items.length := by
  induction h with
  | base _ _ => exact Nat.lt_succ_self _
  | stmt _ ih => exact Nat.lt_succ_of_lt ih
  | loop _ _ _ ih => exact Nat.lt_succ_of_lt ih

/-- An exception inside of the block goes to a frame inside of it. -/
lemma top (h : Within b todo fs bottom items frames) (cause : Cause) (dtors : List (Option D))
    (trace : List (Event A D)) :
    ∃ t, exceptionThrowCause cause frames dtors trace = .run t ∧ Within b todo fs bottom t.todo t.frames ∧
      t.dtors = dtors := by
  induction h with
  | @base f of height =>
    refine ⟨_, rfl, ?_, rfl⟩
    show Within b todo fs bottom f.env _
    rw [of.env]
    exact .base ⟨of.site, rfl⟩ height
  | stmt _ ih => exact ih
  | @loop c items f frames of le h ih =>
    refine ⟨_, rfl, ?_, rfl⟩
    show Within b todo fs bottom f.env _
    rw [of.env]
    exact .loop ⟨of.site, rfl⟩ le h

end Within

variable (b todo fs bottom) in
/-- The block is being run: below the destructors that were pushed in it are those with the numbers `ids`. -/
structure Inside (ids : List Nat) (s : State A F D × Ledger D) : Prop where
  intro ::
  state : ∃ t, s.1 = .run t ∧ WF t s.2 ∧ Within b todo fs bottom t.todo t.frames
  below : ids <:+ s.2.ids

variable (todo fs bottom) in
/-- The block has been left. -/
structure Outside (ids : List Nat) (s : State A F D × Ledger D) : Prop where
  intro ::
  exits : ∃ dtors trace, Exits todo fs dtors trace s.1 ∧ Books dtors trace s.2 ∧ dtors.length = bottom
  ids : s.2.ids = ids

omit [DecidableEq D] in
/-- Popping down to a height leaves what is below it. -/
lemma below_pop {ids : List Nat} {h : Nat} (below : ids <:+ g.ids) (le : ids.length ≤ h) (fits : h ≤ g.ids.length) :
    ids <:+ (g.pop (g.ids.length - h)).ids := by
  have dropped : (g.pop (g.ids.length - h)).ids = g.ids.drop (g.ids.length - h) := by
    rw [Ledger.ids, Ledger.pop_stack, List.map_drop]
    rfl
  rw [dropped]
  refine List.suffix_of_suffix_length_le below (List.drop_suffix _ _) ?_
  rw [List.length_drop]
  omega

omit [DecidableEq D] in
/-- An exception inside of a block, with what holds of the state that it leads to. -/
lemma Within.throw {items : List (Item A F D)} {frames : List (Frame A F D)} {ids : List Nat} {cause : Cause}
    {dtors : List (Option D)} {trace : List (Event A D)} (within : Within b todo fs bottom items frames)
    (good : Good (exceptionThrowCause cause frames dtors trace, g)) (below : ids <:+ g.ids) :
    Inside b todo fs bottom ids (exceptionThrowCause cause frames dtors trace, g) := by
  obtain ⟨t, run, within, -⟩ := within.top cause dtors trace
  rw [run] at good ⊢
  exact ⟨⟨t, rfl, good, within⟩, below⟩

omit [DecidableEq D] in
/-- Popping down to a height leaves as many. -/
lemma length_ids_pop {h : Nat} (fits : h ≤ g.ids.length) : (g.pop (g.ids.length - h)).ids.length = h := by
  rw [Ledger.ids, Ledger.pop_stack, List.map_drop, List.length_drop]
  show g.ids.length - _ = _
  omega

/-- A step inside of a block stays inside or leaves it. -/
lemma Move.inside {ids : List Nat} (move : Move t g s' g') (wf : WF t g)
    (within : Within b todo fs bottom t.todo t.frames) (below : ids <:+ g.ids) (len : ids.length = bottom) :
    Inside b todo fs bottom ids (s', g') ∨ Outside todo fs bottom ids (s', g') := by
  have good := move.good wf
  have height : g.ids.length = t.dtors.length := by
    rw [Ledger.ids, ← wf.stack, List.length_map, List.length_map]
  cases move with
  | go todo =>
    rw [todo] at within
    cases within with
    | stmt within => exact .inl ⟨⟨_, rfl, good, within.stmts _⟩, below⟩
  | push todo =>
    rw [todo] at within
    cases within with
    | stmt within => exact .inl ⟨⟨_, rfl, good, within⟩, below.trans (List.suffix_cons _ _)⟩
  | enter todo =>
    rw [todo] at within
    cases within with
    | stmt within =>
      refine .inl ⟨⟨_, rfl, good, .loop ⟨rfl, rfl⟩ ?_ within⟩, below⟩
      rw [← len, ← height]
      exact below.length_le
  | throw todo => exact .inl (within.throw good below)
  | turn todo frames of same =>
    rw [todo, frames] at within
    cases within with
    | base _ bot =>
      refine .inl ⟨⟨_, rfl, good, Within.stmts (.base of ?_) _⟩, below⟩
      rw [same, bot]
    | loop _ le within =>
      refine .inl ⟨⟨_, rfl, good, Within.stmts (.loop of ?_ within) _⟩, below⟩
      rwa [same]
  | @leave c rest f frames' events s' todo frames dtor exits =>
    rw [todo, frames] at within
    have descends := wf.descends
    rw [frames] at descends
    cases descends with
    | cons fits _ =>
      have count : popCount f.dtorFrame t.dtors = g.ids.length - f.dtorFrame := by
        rw [popCount, if_pos fits, height]
      rw [← height] at fits
      have books := wf.toBooks.pop dtor
      rw [count] at good books ⊢
      cases within with
      | base _ bot =>
        rw [← bot] at len
        have left := below_pop below (Nat.le_of_eq len) fits
        refine .inr ⟨⟨_, _, exits, books, ?_⟩, ?_⟩
        · rw [length_kept (by rwa [← height]), bot]
        · refine (left.eq_of_length ?_).symm
          rw [len, length_ids_pop fits]
      | loop _ le within =>
        have left := below_pop below (Nat.le_trans (Nat.le_of_eq len) le) fits
        rcases exits with rfl | ⟨cause, rfl⟩
        · exact .inl ⟨⟨_, rfl, good, within⟩, left⟩
        · exact .inl (within.throw good left)
  | @remove d rest todo =>
    rw [todo] at within
    cases within with
    | stmt within =>
      refine .inl ⟨⟨_, rfl, good, within⟩, ?_⟩
      show ids <:+ (g.remove d).ids
      rw [show (g.remove d).ids = g.ids from Ledger.removeFrom_ids d g.stack]
      exact below

omit [DecidableEq D] in
/-- Inside a block the machine runs. -/
lemma Inside.running {ids : List Nat} {s : State A F D × Ledger D} (h : Inside b todo fs bottom ids s) :
    Running todo.length s := by
  obtain ⟨⟨t, run, -, within⟩, -⟩ := h
  rw [Running, run]
  exact within.running

omit [DecidableEq D] in
/-- A block that has been left is not being run any more. -/
lemma Outside.not_running {ids : List Nat} {s : State A F D × Ledger D} (matched : Matched todo fs)
    (h : Outside todo fs bottom ids s) : ¬Running todo.length s := by
  obtain ⟨⟨dtors, trace, exits, -, -⟩, -⟩ := h
  rw [Running]
  rcases exits with e | ⟨cause, e⟩
  · rw [e]
    exact Nat.lt_irrefl _
  · rw [e]
    cases fs with
    | nil => exact id
    | cons f fs =>
      obtain ⟨b, rest, of, -, lt⟩ := matched.top
      show ¬todo.length < f.env.length
      rw [of.env, List.length_cons]
      omega

/-- The first state after a block has been entered in which there is not more left to do than what comes after it. -/
lemma block_outside {dtors : List (Option D)} {trace : List (Event A D)} {s1 : State A F D × Ledger D}
    (wf : WF ⟨.stmt (.ktry b) :: todo, fs, dtors, trace⟩ g)
    (run : StepsWhile (joint code) (Running todo.length) (.run ⟨.stmt (.ktry b) :: todo, fs, dtors, trace⟩, g) s1)
    (left : ¬Running todo.length s1) : Outside todo fs dtors.length g.ids s1 := by
  have matched : Matched todo fs := by
    cases wf.matched with
    | stmt matched => exact matched
  have stack : g.stack.map Pushed.dtor = dtors := wf.stack
  have len : g.ids.length = dtors.length := by
    rw [Ledger.ids, ← stack, List.length_map, List.length_map]
  cases run with
  | refl => exact absurd (Nat.lt_succ_self _) left
  | cons _ first rest =>
    have entered : Inside b todo fs dtors.length g.ids
        (.run ⟨.loop b :: todo, ⟨b.site, .new, false, .loop b :: todo, dtors.length, none⟩ :: fs, dtors, trace⟩, g) := by
      have before : Good (.run ⟨.stmt (.ktry b) :: todo, fs, dtors, trace⟩, g) := wf
      have good := joint_good before first
      cases first
      exact ⟨⟨_, rfl, good, .base ⟨rfl, rfl⟩ rfl⟩, List.suffix_refl _⟩
    cases first
    refine rest.leaves (I := Inside b todo fs dtors.length g.ids) (fun _ => Inside.running) ?_ entered left
    intro s s2 inside next
    obtain ⟨⟨t, e, wf, within⟩, below⟩ := inside
    obtain ⟨s, g1⟩ := s
    obtain ⟨s2, g2⟩ := s2
    cases e
    exact ((joint_move wf.matched next).inside wf within below len).imp_right fun out => ⟨out, out.not_running matched⟩

/-- When a `KTRY` statement of a program is left, normally or by an exception, the frames are those from before it, the
    stack of destructors has the ones from before it, and each destructor that was pushed since and not removed has been
    run once. When one was run, those pushed after it had been run or removed. -/
theorem block_balanced (p : Stmt A F D) {n : Nat} {dtors : List (Option D)} {trace : List (Event A D)}
    (reach : Steps (joint code) n (start p, .empty) (.run ⟨.stmt (.ktry b) :: todo, fs, dtors, trace⟩, g))
    (run : StepsWhile (joint code) (Running todo.length) (.run ⟨.stmt (.ktry b) :: todo, fs, dtors, trace⟩, g) (s', g'))
    (left : ¬Running todo.length (s', g')) :
    ∃ dtors' trace', Exits todo fs dtors' trace' s' ∧ dtors'.length = dtors.length ∧ g'.ids = g.ids ∧
      (∀ i, g.pushes ≤ i → i < g'.pushes → i ∉ g'.removed → (ranIds g'.ran).count i = 1) ∧
      Ledger.Lifo g'.removed g'.ran ∧
      g'.stack.map Pushed.dtor = dtors' ∧ trace'.filterMap Event.dtor? = g'.ran.map Ran.dtor := by
  have first : Good ((start p, .empty) : State A F D × Ledger D) := ⟨⟨rfl, .empty, rfl⟩, .stmt .nil, .nil⟩
  have wf : WF ⟨.stmt (.ktry b) :: todo, fs, dtors, trace⟩ g :=
    reach.invariant (I := Good) (fun _ _ good h => joint_good good h) first
  obtain ⟨⟨dtors', trace', exits, books, len⟩, ids⟩ := block_outside wf run left
  refine ⟨dtors', trace', exits, len, ids, fun i new lt live => ?_, books.inv.lifo, books.stack, books.ran⟩
  have ran : i ∈ ranIds g'.ran := by
    rcases books.inv.account i lt with old | rest
    · rw [ids] at old
      exact absurd (wf.inv.bound i old) (Nat.not_lt.mpr new)
    · exact rest.resolve_left live
  exact List.count_eq_one_of_mem books.inv.once ran

end Block

/-- A block with two destructors, and an exception that it catches. -/
def cleaning : Block (Stmt Empty Empty Nat) :=
  ⟨⟨"file.c", 1⟩, .seq (.dtorPush 7) (.seq (.dtorPush 8) (.throw (.top "Throwable") ⟨"file.c", 4⟩ "no")),
    [(.top "Throwable", .skip)], none⟩

/-- A block with two destructors, of which each runs once. -/
theorem cleaning_balanced : ∃ (t : Thread Empty Empty Nat) (g : Ledger Nat),
    StepsWhile (joint nofun) (Running 0) (start (.ktry cleaning), .empty) (.run t, g) ∧
      t.frames = [] ∧ g.ran.map Ran.dtor = [8, 7] ∧ (ranIds g.ran).count 0 = 1 ∧ (ranIds g.ran).count 1 = 1 := by
  have run : StepsWhile (joint nofun) (Running 0) (start (.ktry cleaning), .empty) _ :=
    .cons (by decide) rfl (.cons (by decide) rfl (.cons (by decide) rfl (.cons (by decide) rfl (.cons (by decide) rfl
      (.cons (by decide) rfl (.cons (by decide) rfl (.cons (by decide) rfl (.cons (by decide) rfl (.cons (by decide) rfl
        (.cons (by decide) rfl (.refl _)))))))))))
  obtain ⟨dtors, trace, -, -, -, once, -⟩ := block_balanced (.ktry cleaning) (.refl _) run (by decide)
  exact ⟨_, _, run, rfl, by decide, once 0 (by decide) (by decide) (by decide), once 1 (by decide) (by decide) (by decide)⟩

end Twcos.Exception
