import Primer.Proofs.Flow

/-!
Annotated code. A discipline says how instructions change what is noted of the machine's state; code
is annotated when a note stands at every offset, such that each instruction leads from its note to
the notes of all places where control can go next. Annotations of the parts of a piece of code are
laid one after another like the parts themselves.
-/

set_option autoImplicit false
set_option relaxedAutoImplicit false

namespace Primer

/-- How instructions change what is noted, and what may be noted at a return. Where a jump leads
makes no difference. -/
structure Discipline (A : Type) where
  changes : Instruction → A → A → Prop
  returns : A → Prop
  shifts : ∀ {i a b} (distance : Nat), changes i a b → changes (i.shift distance) a b

namespace Fragment

variable {A : Type} {d : Discipline A}

/-- The instruction at an offset leads from note to note. -/
structure Notes (d : Discipline A) (note : Nat → A) (offset : Nat) (i : Instruction) : Prop where
  next : i.goesOn → d.changes i (note offset) (note (offset + i.size))
  jump : ∀ target, i.jump? = some target → d.changes i (note offset) (note target)
  ret : i = .ret → d.returns (note offset)

/-- All instructions of code that stands at a base lead from note to note. -/
def Marks (d : Discipline A) (note : Nat → A) (base : Nat) (code : Fragment) : Prop :=
  ∀ offset i, at? code offset = some i → Notes d note (base + offset) i

theorem marks_nil (note : Nat → A) (base : Nat) : Marks d note base [] :=
  fun _ _ found => by cases found

theorem Marks.append {note : Nat → A} {base : Nat} {first second : Fragment}
    (left : Marks d note base first) (right : Marks d note (base + size first) second) :
    Marks d note base (first ++ second) := by
  intro offset i found
  by_cases inside : offset < size first
  · rw [at?_append_left inside] at found
    exact left offset i found
  · obtain ⟨rest, rfl⟩ := Nat.exists_eq_add_of_le (Nat.not_lt.mp inside)
    rw [at?_append_right] at found
    rw [← Nat.add_assoc]
    exact right rest i found

theorem marks_single {note : Nat → A} {base : Nat} {i : Instruction} (notes : Notes d note base i) :
    Marks d note base [i] := by
  intro offset j found
  rw [at?] at found
  by_cases start : offset = 0
  · rw [if_pos start, Option.some.injEq] at found
    rw [start, ← found]
    exact notes
  · rw [if_neg start] at found
    split at found <;> cases found

/-- The notes of closed code go with it when it is placed. -/
theorem Marks.place {inner note : Nat → A} {base : Nat} {code : Fragment}
    (marks : Marks d inner 0 code) (closed : Closed code)
    (agrees : ∀ k ≤ size code, note (base + k) = inner k) :
    Marks d note base (shift code base) := by
  intro offset i found
  obtain ⟨j, there, rfl⟩ := at?_shift_eq_some found
  have notes := marks offset j there
  have within := lt_size_of_at? there
  rw [Nat.zero_add] at notes
  constructor
  · intro goesOn
    rw [Instruction.goesOn_shift] at goesOn
    rw [Instruction.size_shift, Nat.add_assoc, agrees _ within, agrees _ (by omega)]
    exact d.shifts base (notes.next goesOn)
  · intro target jumps
    rw [Instruction.jump?_shift, Option.map_eq_some_iff] at jumps
    obtain ⟨local', jumps, rfl⟩ := jumps
    have inside := (closed j (mem_of_at? there) local' jumps).le_size
    rw [Nat.add_comm local', agrees _ inside, agrees _ (by omega)]
    exact d.shifts base (notes.jump local' jumps)
  · intro ret
    rw [agrees _ (by omega)]
    refine notes.ret ?_
    cases j <;> first | rfl | cases ret

/-- Closed code that leads from one note at its start to another at its end. -/
structure Annotated (d : Discipline A) (code : Fragment) (a b : A) : Prop where
  closed : Closed code
  noted : ∃ note, note 0 = a ∧ note (size code) = b ∧ Marks d note 0 code

/-- Annotated code, or a single instruction whose jump, if it is one, leads to an absolute
address. -/
inductive Piece (A : Type) where
  | code (inner : Fragment) (note : Nat → A)
  | one (i : Instruction) (a : A)

namespace Piece

def size : Piece A → Nat
  | code inner _ => inner.size
  | one i _ => i.size

/-- The instructions of the piece at a base. -/
def lay (base : Nat) : Piece A → Fragment
  | code inner _ => inner.shift base
  | one i _ => [i]

def note : Piece A → Nat → A
  | code _ note => note
  | one _ a => fun _ => a

/-- The pieces one after another. -/
def layAll : Nat → List (Piece A) → Fragment
  | _, [] => []
  | base, piece :: more => piece.lay base ++ layAll (base + piece.size) more

/-- The notes of the pieces one after another, and the note behind them. -/
def notes (last : A) : List (Piece A) → Nat → A
  | [], _ => last
  | piece :: more, offset =>
    if offset < piece.size then piece.note offset else notes last more (offset - piece.size)

def sizes : List (Piece A) → Nat
  | [] => 0
  | piece :: more => piece.size + sizes more

theorem size_lay (base : Nat) (piece : Piece A) : Fragment.size (piece.lay base) = piece.size := by
  cases piece <;> simp [lay, size]

theorem size_layAll (base : Nat) (pieces : List (Piece A)) :
    Fragment.size (layAll base pieces) = sizes pieces := by
  induction pieces generalizing base with
  | nil => rfl
  | cons piece more ih => rw [layAll, size_append, size_lay, ih, sizes]

@[simp] theorem notes_sizes (last : A) (pieces : List (Piece A)) :
    notes last pieces (sizes pieces) = last := by
  induction pieces with
  | nil => rfl
  | cons piece more ih =>
    rw [sizes, notes, if_neg (Nat.not_lt.mpr (Nat.le_add_right _ _)), Nat.add_sub_cancel_left, ih]

/-- The note where a later piece starts. -/
theorem notes_append {last : A} (before after : List (Piece A)) {offset : Nat}
    (place : offset = sizes before) : notes last (before ++ after) offset = notes last after 0 := by
  subst place
  induction before with
  | nil => rfl
  | cons piece more ih =>
    rw [List.cons_append, sizes, notes, if_neg (by omega), Nat.add_sub_cancel_left, ih]

/-- The note at the start of the pieces. -/
def start (last : A) : List (Piece A) → A
  | [] => last
  | piece :: _ => piece.note 0

/-- Each piece leads to the next one, and the jumps between them lead to starts of pieces. -/
def Fit (d : Discipline A) (all : List (Piece A)) (last : A) : List (Piece A) → Prop
  | [] => True
  | code inner note :: more =>
    (Closed inner ∧ Marks d note 0 inner ∧ note inner.size = start last more) ∧ Fit d all last more
  | one i a :: more =>
    ((i.goesOn → d.changes i a (start last more)) ∧
      (∀ target, i.jump? = some target → ∃ before after, all = before ++ after ∧
        target = sizes before ∧ d.changes i a (start last after)) ∧ i ≠ .ret) ∧ Fit d all last more

variable {all pieces : List (Piece A)} {last : A}

theorem Fit.drop {before after : List (Piece A)} (fit : Fit d all last (before ++ after)) :
    Fit d all last after := by
  induction before with
  | nil => exact fit
  | cons piece more ih => cases piece <;> exact ih fit.2

/-- The notes begin with that at the start. -/
theorem Fit.notes_zero (fit : Fit d all last pieces) : notes last pieces 0 = start last pieces := by
  induction pieces with
  | nil => rfl
  | cons piece more ih =>
    rw [notes]
    split
    · rfl
    · rename_i empty
      cases piece with
      | code inner note =>
        have nothing : inner.size = 0 := Nat.eq_zero_of_not_pos empty
        have ends := fit.1.2.2
        rw [nothing] at ends
        rw [Nat.zero_sub, ih fit.2, ← ends]
        rfl
      | one i a => exact absurd i.size_pos empty

/-- The notes inside a piece of code, its end included. -/
theorem Fit.notes_code {inner : Fragment} {note : Nat → A}
    (fit : Fit d all last (code inner note :: pieces)) {offset : Nat}
    (within : offset ≤ inner.size) :
    notes last (code inner note :: pieces) offset = note offset := by
  rw [notes]
  by_cases inside : offset < inner.size
  · exact if_pos inside
  · obtain rfl : offset = inner.size := by omega
    rw [show Piece.size (code inner note) = inner.size from rfl, if_neg inside, Nat.sub_self,
      fit.2.notes_zero, fit.1.2.2]

theorem Fit.marks {base : Nat} {whole : Nat → A} (fit : Fit d all last pieces)
    (agrees : ∀ k ≤ sizes pieces, whole (base + k) = notes last pieces k)
    (starts : ∀ before after, all = before ++ after → whole (sizes before) = start last after) :
    Marks d whole base (layAll base pieces) := by
  induction pieces generalizing base with
  | nil => exact marks_nil _ _
  | cons piece more ih =>
    have later : ∀ k ≤ sizes more, whole (base + piece.size + k) = notes last more k := by
      intro k within
      rw [Nat.add_assoc, agrees _ (by rw [sizes]; omega), notes, if_neg (by omega),
        Nat.add_sub_cancel_left]
    cases piece with
    | code inner note =>
      refine Marks.append (fit.1.2.1.place fit.1.1 fun k within => ?_) ?_
      · rw [agrees k (by simp only [sizes, size]; omega), fit.notes_code within]
      · rw [size_lay]
        exact ih fit.2 later
    | one i a =>
      have here : whole base = a := by
        have begins := agrees 0 (Nat.zero_le _)
        rwa [fit.notes_zero] at begins
      have next : whole (base + i.size) = start last more := by
        have begins := later 0 (Nat.zero_le _)
        rwa [fit.2.notes_zero] at begins
      refine Marks.append
        (marks_single ⟨?_, fun target jumps => ?_, fun ret => absurd ret fit.1.2.2⟩) ?_
      · rw [here, next]
        exact fit.1.1
      · obtain ⟨before, after, split, rfl, changes⟩ := fit.1.2.1 target jumps
        rw [here, starts before after split]
        exact changes
      · exact ih fit.2 later

end Piece

namespace Annotated

variable {a b e : A} {first second third : Fragment}

/-- Pieces that fit make annotated code. -/
theorem pieces {all : List (Piece A)} {last : A} {code : Fragment} (fit : Piece.Fit d all last all)
    (laid : Piece.layAll 0 all = code) (closed : Closed code) :
    Annotated d code (Piece.start last all) last := by
  refine ⟨closed, Piece.notes last all, fit.notes_zero, ?_, ?_⟩
  · rw [← laid, Piece.size_layAll, Piece.notes_sizes]
  · rw [← laid]
    refine fit.marks (fun k _ => by rw [Nat.zero_add]) fun before after split => ?_
    rw [split] at fit
    rw [split, Piece.notes_append before after rfl]
    exact fit.drop.notes_zero

theorem nil : Annotated d [] a a := ⟨jumpsTo_nil _, fun _ => a, rfl, rfl, marks_nil _ _⟩

/-- A single instruction. Behind a return anything may be noted. -/
theorem single {i : Instruction} (straight : i.jump? = none) (goes : i.goesOn → d.changes i a b)
    (returns : i = .ret → d.returns a) : Annotated d [i] a b := by
  have positive := i.size_pos
  refine ⟨straight_closed (straight_single straight), fun offset => if offset = 0 then a else b,
    rfl, ?_, marks_single ⟨?_, ?_, returns⟩⟩
  · simp only [size_cons, size_nil]
    exact if_neg (by omega)
  · rw [Nat.zero_add, if_pos rfl, if_neg (by omega)]
    exact goes
  · rw [straight]
    nofun

attribute [local simp] Piece.layAll Piece.lay Piece.sizes Piece.size guardSize

theorem append (left : Annotated d first a b) (right : Annotated d second b e) :
    Annotated d (first ++ shift second (size first)) a e := by
  obtain ⟨closed, note, rfl, stop, marks⟩ := left
  obtain ⟨closed', note', rfl, stop', marks'⟩ := right
  let all : List (Piece A) := [.code first note, .code second note']
  have fit : Piece.Fit d all e all := ⟨⟨closed, marks, stop⟩, ⟨closed', marks', stop'⟩, trivial⟩
  exact pieces fit (by simp [all]) (closed.append_shift closed')

theorem followed {i : Instruction} (left : Annotated d first a b) (straight : i.jump? = none)
    (goes : i.goesOn → d.changes i b e) (returns : i = .ret → d.returns b) :
    Annotated d (first ++ [i]) a e := by
  have whole := left.append (single straight goes returns)
  rwa [shift_straight (straight_single straight)] at whole

theorem before {more : List Fragment} (left : Annotated d first a b)
    (right : Annotated d (sequence more) b e) : Annotated d (sequence (first :: more)) a e := by
  rw [sequence_cons]
  exact left.append right

/-- A note that is only known by an equation. -/
private theorem into {i : Instruction} {x y : A} (same : y = x) (changes : d.changes i a x) :
    d.changes i a y :=
  same ▸ changes

theorem conditional (condition : Annotated d first a b) (inner : Annotated d second a a)
    (inverts : d.changes .invert b b) (branches : ∀ target, d.changes (.jumpIf target) b a) :
    Annotated d (conditional first second) a a := by
  obtain ⟨closed, note, rfl, stop, marks⟩ := condition
  obtain ⟨closed', note', start, stop', marks'⟩ := inner
  let all : List (Piece A) := [.code first note, .one .invert b,
    .one (.jumpIf (guardSize first + size second)) b, .code second note']
  have fit : Piece.Fit d all (note 0) all := by
    refine ⟨⟨closed, marks, stop⟩, ⟨fun _ => inverts, nofun, nofun⟩,
      ⟨fun _ => into start (branches _), ?_, nofun⟩, ⟨closed', marks', stop'⟩, trivial⟩
    rintro _ ⟨⟩
    exact ⟨all, [], rfl, by simp [all]; omega, branches _⟩
  exact pieces fit (by simp [all, Fragment.conditional, unlessGoTo, Nat.add_assoc])
    (closed_conditional closed closed')

theorem alternative (condition : Annotated d first a b) (inner : Annotated d second a e)
    (otherwise : Annotated d third a e) (inverts : d.changes .invert b b)
    (branches : ∀ target, d.changes (.jumpIf target) b a)
    (leaves : ∀ target, d.changes (.jump target) e e) :
    Annotated d (alternative first second third) a e := by
  obtain ⟨closed, note, rfl, stop, marks⟩ := condition
  obtain ⟨closed', note', start', stop', marks'⟩ := inner
  obtain ⟨closed'', note'', start'', stop'', marks''⟩ := otherwise
  let other := guardSize first + size second + jumpSize
  let early : List (Piece A) := [.code first note, .one .invert b, .one (.jumpIf other) b,
    .code second note', .one (.jump (other + size third)) e]
  let all := early ++ [Piece.code third note'']
  have fit : Piece.Fit d all e all := by
    refine ⟨⟨closed, marks, stop⟩, ⟨fun _ => inverts, nofun, nofun⟩,
      ⟨fun _ => into start' (branches _), ?_, nofun⟩, ⟨closed', marks', stop'⟩, ⟨nofun, ?_, nofun⟩,
      ⟨closed'', marks'', stop''⟩, trivial⟩
    · rintro _ ⟨⟩
      exact ⟨early, _, rfl, by simp [early, other]; omega, into start'' (branches _)⟩
    · rintro _ ⟨⟩
      exact ⟨all, [], rfl, by simp [all, early, other]; omega, leaves _⟩
  exact pieces fit (by simp [all, early, other, Fragment.alternative, unlessGoTo, Nat.add_assoc])
    (closed_alternative closed closed' closed'')

theorem whileLoop (condition : Annotated d first a b) (inner : Annotated d second a a)
    (inverts : d.changes .invert b b) (branches : ∀ target, d.changes (.jumpIf target) b a)
    (again : ∀ target, d.changes (.jump target) a a) :
    Annotated d (whileLoop first second) a a := by
  obtain ⟨closed, note, rfl, stop, marks⟩ := condition
  obtain ⟨closed', note', start', stop', marks'⟩ := inner
  let all : List (Piece A) := [.code first note, .one .invert b,
    .one (.jumpIf (guardSize first + size second + jumpSize)) b, .code second note',
    .one (.jump 0) (note 0)]
  have fit : Piece.Fit d all (note 0) all := by
    refine ⟨⟨closed, marks, stop⟩, ⟨fun _ => inverts, nofun, nofun⟩,
      ⟨fun _ => into start' (branches _), ?_, nofun⟩, ⟨closed', marks', stop'⟩, ⟨nofun, ?_, nofun⟩,
      trivial⟩
    · rintro _ ⟨⟩
      exact ⟨all, [], rfl, by simp [all]; omega, branches _⟩
    · rintro _ ⟨⟩
      exact ⟨[], all, rfl, rfl, again _⟩
  exact pieces fit (by simp [all, Fragment.whileLoop, unlessGoTo, Nat.add_assoc])
    (closed_whileLoop closed closed')

-- Behind the head comes the right side, and behind that what is decided without it.
private theorem skipping {v : Value} (head : Annotated d first a b) (right : Annotated d second a b)
    (branches : ∀ target, d.changes (.jumpIf target) b a)
    (leaves : ∀ target, d.changes (.jump target) b b) (decides : d.changes (.push v) a b)
    {code : Fragment} (closed : Closed code)
    (shape : first ++ [Instruction.jumpIf (size first + jumpSize + size second + jumpSize)] ++
      shift second (size first + jumpSize) ++
      [Instruction.jump (size first + jumpSize + size second + jumpSize + size [.push v])] ++
        [Instruction.push v] = code) :
    Annotated d code a b := by
  obtain ⟨closed, note, rfl, stop, marks⟩ := head
  obtain ⟨closed', note', start', stop', marks'⟩ := right
  let decided := size first + jumpSize + size second + jumpSize
  let early : List (Piece A) := [.code first note, .one (.jumpIf decided) b, .code second note',
    .one (.jump (decided + size [.push v])) b]
  let all := early ++ [Piece.one (.push v) (note 0)]
  have fit : Piece.Fit d all b all := by
    refine ⟨⟨closed, marks, stop⟩, ⟨fun _ => into start' (branches _), ?_, nofun⟩,
      ⟨closed', marks', stop'⟩, ⟨nofun, ?_, nofun⟩, ⟨fun _ => decides, nofun, nofun⟩, trivial⟩
    · rintro _ ⟨⟩
      exact ⟨early, _, rfl, by simp [early, decided]; omega, branches _⟩
    · rintro _ ⟨⟩
      exact ⟨all, [], rfl, by simp [all, early, decided]; omega, leaves _⟩
  exact pieces fit (by rw [← shape]; simp [all, early, decided]) (by assumption)

theorem shortCircuit (op : Logic) (left : Annotated d first a b) (right : Annotated d second a b)
    (inverts : d.changes .invert b b) (branches : ∀ target, d.changes (.jumpIf target) b a)
    (leaves : ∀ target, d.changes (.jump target) b b) (decides : ∀ v, d.changes (.push v) a b) :
    Annotated d (shortCircuit op first second) a b := by
  have closed := closed_shortCircuit op left.closed right.closed
  cases op with
  | and =>
    exact skipping (left.followed rfl (fun _ => inverts) nofun) right branches leaves (decides _)
      closed rfl
  | or => exact skipping left right branches leaves (decides _) closed rfl

/-- The count is tested and stored, and the body is run between the steps of the counter. -/
theorem countedLoop (threshold counter : UInt8) {c f g h : A} (amount : Annotated d first a b)
    (inner : Annotated d second e e)
    (tests : Annotated d [.dup, .push (.number .zero), .order .lessEq] b c)
    (skips : ∀ target, d.changes (.jumpIf target) c f)
    (prepares : Annotated d [.store threshold, .push (.number .zero), .store counter] f e)
    (advances : Annotated d [.load counter, .push (.number .one), .arith .add, .dup, .store counter,
      .load threshold, .order .less] e g)
    (again : ∀ target, d.changes (.jumpIf target) g e)
    (leaves : ∀ target, d.changes (.jump target) e h) (drops : d.changes .pop f h) :
    Annotated d (countedLoop first threshold counter second) a h := by
  obtain ⟨closed, note, rfl, stop, marks⟩ := amount
  obtain ⟨closed', note', start', stop', marks'⟩ := inner
  obtain ⟨closedTest, test, testStart, testStop, testMarks⟩ := tests
  obtain ⟨closedFirst, prepare, prepareStart, prepareStop, prepareMarks⟩ := prepares
  obtain ⟨closedNext, advance, advanceStart, advanceStop, advanceMarks⟩ := advances
  let tested : Fragment := [.dup, .push (.number .zero), .order .lessEq]
  let prepared : Fragment := [.store threshold, .push (.number .zero), .store counter]
  let advanced : Fragment := [.load counter, .push (.number .one), .arith .add, .dup,
    .store counter, .load threshold, .order .less]
  let top := size (first ++ tested) + jumpSize + size prepared
  let skip := top + size second + size advanced + jumpSize + jumpSize
  let early : List (Piece A) := [.code first note, .code tested test, .one (.jumpIf skip) c,
    .code prepared prepare]
  let late : List (Piece A) := [.code second note', .code advanced advance, .one (.jumpIf top) g,
    .one (.jump (skip + size [.pop])) e]
  let all := early ++ late ++ [Piece.one .pop f]
  have fit : Piece.Fit d all h all := by
    refine ⟨⟨closed, marks, stop.trans testStart.symm⟩, ⟨closedTest, testMarks, testStop⟩,
      ⟨fun _ => into prepareStart (skips _), ?_, nofun⟩,
      ⟨closedFirst, prepareMarks, prepareStop.trans start'.symm⟩,
      ⟨closed', marks', stop'.trans advanceStart.symm⟩, ⟨closedNext, advanceMarks, advanceStop⟩,
      ⟨fun _ => again _, ?_, nofun⟩, ⟨nofun, ?_, nofun⟩, ⟨fun _ => drops, nofun, nofun⟩, trivial⟩
    · rintro _ ⟨⟩
      exact ⟨early ++ late, _, rfl, by simp [early, late, skip, top]; omega, skips _⟩
    · rintro _ ⟨⟩
      exact ⟨early, late ++ [.one .pop f], by simp [all], by simp [early, top]; omega,
        start' ▸ again _⟩
    · rintro _ ⟨⟩
      exact ⟨all, [], (List.append_nil _).symm, by simp [all, early, late, skip, top]; omega,
        leaves _⟩
  refine pieces fit ?_ (closed_countedLoop threshold counter closed closed')
  simp [all, early, late, skip, top, tested, prepared, advanced, Fragment.countedLoop,
    Instruction.shift, Nat.add_assoc]

end Annotated

end Fragment

end Primer
