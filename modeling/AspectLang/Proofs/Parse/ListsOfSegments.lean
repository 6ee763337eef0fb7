import AspectLang.Parse.SegmentStack
import Mathlib.Algebra.BigOperators.Group.List.Basic
import Mathlib.Algebra.GroupWithZero.Nat

/-! # A stack of segments is a stack of lists

`SegmentStack.ofSegments` lays out lists as a stack keeps them: the items of all lists one behind
the other, and the lengths of the lists.  Every operation can be described on the lists alone
(`Operation.onSegments`), and it is undefined there in four cases only (`Operation.Undefined`).
From a layout, an operation that is defined comes to the layout of what the description says
(`run_of_onSegments`), and an undefined one fails (`run_of_undefined`).  So a run of operations
that all succeed is a run on lists (`operations_on_segments`). -/

namespace AspectLang.SegmentStack

variable {α : Type}

/-! ### Lists as a stack keeps them -/

/-- The stack that holds given segments, the topmost first. -/
def ofSegments (segments : List (List α)) : SegmentStack α :=
  ⟨segments.flatMap List.reverse, segments.map List.length⟩

theorem ofSegments_nil : ofSegments ([] : List (List α)) = empty := rfl

theorem ofSegments_cons (top : List α) (rest : List (List α)) :
    ofSegments (top :: rest) =
      ⟨top.reverse ++ (ofSegments rest).items, top.length :: (ofSegments rest).lengths⟩ := rfl

/-- The lengths of a stack that holds segments add up to the number of its items. -/
theorem sum_lengths_ofSegments (segments : List (List α)) :
    (ofSegments segments).lengths.sum = (ofSegments segments).items.length := by
  simp [ofSegments, List.length_flatMap]

theorem toList_ofSegments (segments : List (List α)) :
    (ofSegments segments).toList = segments.reverse.flatten := by
  induction segments with
  | nil => rfl
  | cons top rest ih =>
      unfold toList at ih ⊢
      rw [ofSegments_cons, List.reverse_append, List.reverse_reverse, ih]
      simp

/-- A stack holds its segments in one way only. -/
theorem ofSegments_injective {segments other : List (List α)}
    (h : ofSegments segments = ofSegments other) : segments = other := by
  induction segments generalizing other with
  | nil =>
      cases other with
      | nil => rfl
      | cons top rest => cases congrArg SegmentStack.lengths h
  | cons top rest ih =>
      cases other with
      | nil => cases congrArg SegmentStack.lengths h
      | cons top' rest' =>
          simp only [ofSegments_cons, mk.injEq, List.cons.injEq] at h
          obtain ⟨hitems, hlength, hlengths⟩ := h
          obtain ⟨htop, hbelow⟩ := List.append_inj hitems (by simpa using hlength)
          have hrest : ofSegments rest = ofSegments rest' :=
            congrArg₂ SegmentStack.mk hbelow hlengths
          rw [List.reverse_inj.mp htop, ih hrest]

/-! ### Operations -/

/-- An operation of the parser on one of its stacks. -/
inductive Operation (α : Type) where
  | push (a : α)
  | pushSegment (segment : List α)
  | pushEmpty
  | concat
  | pop
  | popSegment
  | popOptional
  /-- Takes every item of every segment. -/
  | drain
  | clear

/-- What an operation gives. -/
inductive Answer (α : Type) where
  | nothing
  | item (a : α)
  | items (items : List α)
  | optional (a : Option α)

namespace Operation

/-- Does an operation on a stack of segments. -/
def run : Operation α → Op α (Answer α)
  | .push a => fun s => .ok .nothing (s.push a)
  | .pushSegment segment => fun s => .ok .nothing (s.pushSegment segment)
  | .pushEmpty => fun s => .ok .nothing (s.pushLength 0)
  | .concat => do
    SegmentStack.concat
    return .nothing
  | .pop => .item <$> SegmentStack.pop
  | .popSegment => .items <$> SegmentStack.popSegment
  | .popOptional => .optional <$> SegmentStack.popOptional
  | .drain => fun s => .ok (.items s.toList) .empty
  | .clear => fun _ => .ok .nothing .empty

/-- An operation on segments, the topmost first: what it gives, and the segments after it. -/
def onSegments : Operation α → List (List α) → Option (Answer α × List (List α))
  | .push a, segments => some (.nothing, [a] :: segments)
  | .pushSegment segment, segments => some (.nothing, segment :: segments)
  | .pushEmpty, segments => some (.nothing, [] :: segments)
  | .concat, top :: below :: rest => some (.nothing, (below ++ top) :: rest)
  | .pop, [a] :: rest => some (.item a, rest)
  | .popSegment, top :: rest => some (.items top, rest)
  | .popOptional, [] :: rest => some (.optional none, rest)
  | .popOptional, [a] :: rest => some (.optional (some a), rest)
  | .drain, segments => some (.items segments.reverse.flatten, [])
  | .clear, _ => some (.nothing, [])
  | _, _ => none

/-- Whether there are not the segments that an operation needs. -/
def Undefined : Operation α → List (List α) → Prop
  | .concat, segments => segments.length < 2
  | .pop, segments => segments.head?.map List.length ≠ some 1
  | .popSegment, segments => segments = []
  | .popOptional, segments => segments = [] ∨ ∃ top ∈ segments.head?, 1 < top.length
  | _, _ => False

theorem onSegments_eq_none_iff (op : Operation α) (segments : List (List α)) :
    op.onSegments segments = none ↔ op.Undefined segments := by
  cases op with
  | push | pushSegment | pushEmpty | drain | clear => simp [onSegments, Undefined]
  | concat =>
      rcases segments with _ | ⟨top, _ | ⟨below, rest⟩⟩ <;> simp [onSegments, Undefined]
  | pop =>
      rcases segments with _ | ⟨_ | ⟨a, _ | ⟨b, more⟩⟩, rest⟩ <;> simp [onSegments, Undefined]
  | popSegment =>
      cases segments <;> simp [onSegments, Undefined]
  | popOptional =>
      rcases segments with _ | ⟨_ | ⟨a, _ | ⟨b, more⟩⟩, rest⟩ <;> simp [onSegments, Undefined]

end Operation

/-! ### One operation -/

theorem popSegment_ofSegments (top : List α) (rest : List (List α)) :
    SegmentStack.popSegment (ofSegments (top :: rest)) = .ok top (ofSegments rest) := by
  have htake : (top.reverse ++ (ofSegments rest).items).take top.length = top.reverse := by
    rw [← List.length_reverse, List.take_left]
  have hdrop : (top.reverse ++ (ofSegments rest).items).drop top.length =
      (ofSegments rest).items := by
    rw [← List.length_reverse, List.drop_left]
  rw [ofSegments_cons]
  simp [SegmentStack.popSegment, htake, hdrop]

/-- The topmost segment as an optional item. -/
theorem popOptional_ofSegments (top : List α) (rest : List (List α)) :
    SegmentStack.popOptional (ofSegments (top :: rest)) =
      match top with
      | [] => .ok none (ofSegments rest)
      | [a] => .ok (some a) (ofSegments rest)
      | top => .error (.arity 1 top.length) (ofSegments rest) := by
  unfold SegmentStack.popOptional
  simp only [bind, EStateM.bind, popSegment_ofSegments]
  rcases top with _ | ⟨a, _ | ⟨b, more⟩⟩ <;> rfl

/-- **An operation that is defined on the segments of a stack does there what it does on them.** -/
theorem Operation.run_of_onSegments {op : Operation α} {segments after : List (List α)}
    {answer : Answer α} (h : op.onSegments segments = some (answer, after)) :
    op.run (ofSegments segments) = .ok answer (ofSegments after) := by
  unfold onSegments at h
  split at h <;> cases h
  · rfl
  · rfl
  · rfl
  · rename_i top below rest
    simp [run, SegmentStack.concat, ofSegments_cons, bind, EStateM.bind, pure, EStateM.pure]
  · rfl
  · rename_i top rest
    simp [run, popSegment_ofSegments, Functor.map, EStateM.map]
  · simp [run, popOptional_ofSegments, Functor.map, EStateM.map]
  · simp [run, popOptional_ofSegments, Functor.map, EStateM.map]
  · simp [run, toList_ofSegments, ofSegments_nil]
  · rfl

/-- An operation fails on a stack whose segments it is not defined on. -/
theorem Operation.run_of_undefined {op : Operation α} {segments : List (List α)}
    (h : op.Undefined segments) : ∃ e s, op.run (ofSegments segments) = .error e s := by
  cases op with
  | push | pushSegment | pushEmpty | drain | clear => exact h.elim
  | concat =>
      rcases segments with _ | ⟨top, _ | ⟨below, rest⟩⟩
      · exact ⟨_, _, rfl⟩
      · exact ⟨_, _, rfl⟩
      · have hfew : rest.length + 2 < 2 := h
        omega
  | pop =>
      rcases segments with _ | ⟨_ | ⟨a, _ | ⟨b, more⟩⟩, rest⟩
      · exact ⟨_, _, rfl⟩
      · exact ⟨_, _, rfl⟩
      · simp [Undefined] at h
      · refine ⟨.arity 1 (more.length + 2), ⟨(ofSegments ((a :: b :: more) :: rest)).items,
          (ofSegments rest).lengths⟩, ?_⟩
        simp [run, SegmentStack.pop, ofSegments_cons, Functor.map, EStateM.map]
  | popSegment =>
      cases segments with
      | nil => exact ⟨_, _, rfl⟩
      | cons top rest => simp [Undefined] at h
  | popOptional =>
      rcases segments with _ | ⟨_ | ⟨a, _ | ⟨b, more⟩⟩, rest⟩
      · exact ⟨_, _, rfl⟩
      · simp [Undefined] at h
      · simp [Undefined] at h
      · refine ⟨.arity 1 (more.length + 2), ofSegments rest, ?_⟩
        simp [run, popOptional_ofSegments, Functor.map, EStateM.map]

/-- What an operation does on a stack of segments, by its description. -/
theorem Operation.run_ok_iff {op : Operation α} {segments : List (List α)} {answer : Answer α}
    {s : SegmentStack α} :
    op.run (ofSegments segments) = .ok answer s ↔
      ∃ after, op.onSegments segments = some (answer, after) ∧ s = ofSegments after := by
  constructor
  · intro h
    cases hdefined : op.onSegments segments with
    | none =>
        obtain ⟨e, s', herror⟩ := run_of_undefined ((op.onSegments_eq_none_iff _).mp hdefined)
        rw [herror] at h
        cases h
    | some result =>
        rw [run_of_onSegments hdefined] at h
        cases h
        exact ⟨result.2, rfl, rfl⟩
  · rintro ⟨after, hdefined, rfl⟩
    exact run_of_onSegments hdefined

/-- An operation fails on a stack of segments just when it is undefined on the segments. -/
theorem Operation.run_error_iff {op : Operation α} {segments : List (List α)} :
    (∃ e s, op.run (ofSegments segments) = .error e s) ↔ op.Undefined segments := by
  refine ⟨fun ⟨e, s, herror⟩ => ?_, run_of_undefined⟩
  rw [← op.onSegments_eq_none_iff]
  cases hdefined : op.onSegments segments with
  | none => rfl
  | some result =>
      rw [run_of_onSegments hdefined] at herror
      cases herror

/-! ### Runs -/

/-- Does operations one after the other, and collects what they give. -/
def runAll : List (Operation α) → Op α (List (Answer α))
  | [] => return []
  | op :: ops => do
    let answer ← op.run
    let answers ← runAll ops
    return answer :: answers

/-- Operations on segments, one after the other. -/
def onSegmentsAll : List (Operation α) → List (List α) → Option (List (Answer α) × List (List α))
  | [], segments => some ([], segments)
  | op :: ops, segments => do
    let (answer, segments) ← op.onSegments segments
    let (answers, segments) ← onSegmentsAll ops segments
    return (answer :: answers, segments)

/-- Operations that succeed from a stack of segments come to a stack of segments. -/
theorem onSegmentsAll_of_runAll {ops : List (Operation α)} {segments : List (List α)}
    {answers : List (Answer α)} {s : SegmentStack α}
    (h : runAll ops (ofSegments segments) = .ok answers s) :
    ∃ after, onSegmentsAll ops segments = some (answers, after) ∧ s = ofSegments after := by
  induction ops generalizing segments answers with
  | nil =>
      cases h
      exact ⟨segments, rfl, rfl⟩
  | cons op ops ih =>
      unfold runAll at h
      simp only [bind, EStateM.bind] at h
      cases hop : op.run (ofSegments segments) with
      | error e s' =>
          rw [hop] at h
          cases h
      | ok answer s' =>
          obtain ⟨middle, hmiddle, rfl⟩ := Operation.run_ok_iff.mp hop
          rw [hop] at h
          dsimp only at h
          cases hops : runAll ops (ofSegments middle) with
          | error e s' =>
              rw [hops] at h
              cases h
          | ok more s' =>
              rw [hops] at h
              cases h
              obtain ⟨after, hafter, rfl⟩ := ih hops
              exact ⟨after, by simp [onSegmentsAll, hmiddle, hafter], rfl⟩

/-- **Operations on a stack are operations on a list of segments.**  After any operations that
succeed from the empty stack, the stack holds segments, in one way, and its lengths add up to its
items; the operations gave what they give on segments.  The next operation gives what it gives on
these segments, and fails just when it is undefined on them. -/
theorem operations_on_segments {ops : List (Operation α)} {answers : List (Answer α)}
    {s : SegmentStack α} (h : runAll ops empty = .ok answers s) :
    ∃ segments, onSegmentsAll ops [] = some (answers, segments) ∧ s = ofSegments segments ∧
      (∀ other, s = ofSegments other → other = segments) ∧ s.lengths.sum = s.items.length ∧
      ∀ op : Operation α,
        (∀ answer s', op.run s = .ok answer s' ↔
          ∃ after, op.onSegments segments = some (answer, after) ∧ s' = ofSegments after) ∧
        ((∃ e s', op.run s = .error e s') ↔ op.Undefined segments) := by
  rw [← ofSegments_nil] at h
  obtain ⟨segments, hsegments, rfl⟩ := onSegmentsAll_of_runAll h
  refine ⟨segments, hsegments, rfl, fun other hother => (ofSegments_injective hother).symm,
    sum_lengths_ofSegments segments, fun op => ⟨fun answer s' => ?_, ?_⟩⟩
  · exact Operation.run_ok_iff
  · exact Operation.run_error_iff

/-- Three items are joined beside an empty segment, on which nothing can be popped. -/
theorem operations_on_joined_segments :
    runAll [.push 1, .push 2, .concat, .push 3, .concat, .pushEmpty, .pushSegment [4, 5],
        .popSegment] empty =
      .ok [.nothing, .nothing, .nothing, .nothing, .nothing, .nothing, .nothing, .items [4, 5]]
        ⟨[3, 2, 1], [0, 3]⟩ ∧
      (⟨[3, 2, 1], [0, 3]⟩ : SegmentStack Nat) = ofSegments [[], [1, 2, 3]] ∧
      ∃ e s, Operation.pop.run (⟨[3, 2, 1], [0, 3]⟩ : SegmentStack Nat) = .error e s := by
  refine ⟨rfl, rfl, ?_⟩
  obtain ⟨segments, -, -, hunique, -, hnext⟩ := @operations_on_segments Nat
    [.push 1, .push 2, .concat, .push 3, .concat, .pushEmpty, .pushSegment [4, 5], .popSegment] _
    ⟨[3, 2, 1], [0, 3]⟩ rfl
  obtain rfl := hunique [[], [1, 2, 3]] rfl
  exact (hnext .pop).2.mpr (by simp [Operation.Undefined])

end AspectLang.SegmentStack
