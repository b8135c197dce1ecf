import Treewalk.Proofs.Session.Diary

/-! # What becomes of entries

    An accepted entry is interpreted by the first run after it, or never; a text that
    is refused leaves nothing behind but the notes about it. -/

namespace Treewalk

/-! ### Once and never again -/

namespace DiarySession

variable {w : DiarySession}

/-- What a step adds to the diary: the entries that are queued afterwards were queued
    before or are new, and only what was queued is interpreted. -/
theorem step_diary (w : DiarySession) (step : Step) :
    ∃ x, (w.step step).diary = w.diary ++ [x] ∧
      (∀ t ∈ (w.step step).queued, t ∈ w.queued ∨ t.step = w.diary.length) ∧
      ∀ i ∈ x.played, i.ticket ∈ w.queued := by
  have hnone : ∀ i ∈ ([] : List Interpretation), i.ticket ∈ w.queued := List.forall_mem_nil _
  cases step with
  | dump => exact ⟨_, rfl, fun t ht => .inl ht, hnone⟩
  | act action =>
    cases action with
    | pop => exact ⟨_, rfl, fun t ht => .inl ht, hnone⟩
    | takeOutput => exact ⟨_, rfl, fun t ht => .inl ht, hnone⟩
    | run =>
      refine ⟨_, rfl, nofun, ?_⟩
      intro i hi
      exact (Session.interpretAll_tickets _ _).subset (List.mem_map_of_mem hi)
    | add source line =>
      refine ⟨_, rfl, ?_, hnone⟩
      intro t ht
      rcases List.mem_append.mp ht with hold | hnew
      · exact .inl hold
      · have hticket := Option.mem_toList.mp hnew
        unfold ticketFor at hticket
        split at hticket
        · cases hticket
          exact .inr rfl
        · cases hticket

/-- After the first `n` steps, and what was interpreted in them, only entries of later
    steps are interpreted. -/
structure GoesOnFrom (n : Nat) (before : List Interpretation) (w : DiarySession) : Prop where
  queued : ∀ t ∈ w.queued, n ≤ t.step
  length : n ≤ w.diary.length
  kept : before ⊆ w.diary.played
  newer : ∀ i ∈ w.diary.played, i ∈ before ∨ n ≤ i.ticket.step

variable {n : Nat} {before : List Interpretation}

theorem GoesOnFrom.step (h : GoesOnFrom n before w) (step : Step) :
    GoesOnFrom n before (w.step step) := by
  obtain ⟨x, hdiary, hqueued, hplayed⟩ := w.step_diary step
  constructor
  · intro t ht
    rcases hqueued t ht with hold | hnew
    · exact h.queued t hold
    · rw [hnew]
      exact h.length
  · rw [hdiary, List.length_append]
    exact Nat.le_add_right_of_le h.length
  · rw [hdiary, Diary.played_snoc]
    exact fun i hi => List.mem_append_left _ (h.kept hi)
  · rw [hdiary, Diary.played_snoc]
    intro i hi
    rcases List.mem_append.mp hi with hold | hnew
    · exact h.newer i hold
    · exact .inr (h.queued _ (hplayed i hnew))

theorem GoesOnFrom.steps (h : GoesOnFrom n before w) (steps : List Step) :
    GoesOnFrom n before (w.steps steps) := by
  induction steps generalizing w with
  | nil => exact h
  | cons step steps ih => exact ih (h.step step)

/-- What waits for a run is interpreted by that run or never. -/
theorem played_later (h : w.Faithful) {t : Ticket} (ht : t ∈ w.queued) (more : List Step) :
    t ∈ ((w.step (.act .run)).steps more).diary.played.map (·.ticket) ↔
      t ∈ w.run.1.map (·.ticket) := by
  have hplayed : (w.step (.act .run)).diary.played = w.diary.played ++ w.run.1 :=
    Diary.played_snoc w.diary (.ran w.run.1)
  have hstart : GoesOnFrom (w.diary.length + 1) (w.diary.played ++ w.run.1) (w.step (.act .run)) := by
    refine ⟨nofun, ?_, ?_, ?_⟩
    · show w.diary.length + 1 ≤ (w.diary ++ [Happening.ran w.run.1]).length
      simp
    · rw [hplayed]
      exact List.Subset.refl _
    · rw [hplayed]
      exact fun i hi => .inl hi
  have hlater := hstart.steps more
  constructor
  · intro hin
    obtain ⟨i, hi, rfl⟩ := List.mem_map.mp hin
    rcases hlater.newer i hi with hold | hnew
    · rcases List.mem_append.mp hold with hbefore | hrun
      · -- it cannot have been interpreted before, as it still waits
        have hordered := h.ordered.sublist h.once
        have hlt := (List.pairwise_append.mp hordered).2.2 _ (List.mem_map_of_mem hbefore) _ ht
        exact absurd hlt (Nat.lt_irrefl _)
      · exact List.mem_map_of_mem hrun
    · have haccepted : i.ticket ∈ w.diary.accepted :=
        h.once.subset (List.mem_append_right _ ht)
      have hlt := h.earlier _ haccepted
      omega
  · intro hin
    obtain ⟨i, hi, rfl⟩ := List.mem_map.mp hin
    exact List.mem_map_of_mem (hlater.kept (List.mem_append_right _ hi))

/-! ### What a diary tells -/

/-- What becomes of the entries of a session. -/
structure Lawful (w : DiarySession) : Prop where
  /-- A text that is added gets a ticket if it is not refused. -/
  accepts : ∀ source line,
    (w.ticketFor source line).isSome ↔ (w.session.add source line).2 = none
  /-- The tickets of accepted entries are all different. -/
  distinct : w.diary.accepted.Pairwise fun a b => a.step < b.step
  /-- Entries are interpreted in the order they were added, and none twice. -/
  inOrder : List.Sublist (w.diary.played.map (·.ticket)) w.diary.accepted
  /-- The queue holds what was accepted since the last run. -/
  queue : w.session.queue = w.diary.waiting.map (·.entry)
  /-- A run is made of the interpretations that are noted. -/
  runs : w.run.2 = w.session.run
  /-- It interprets what waits for it, unless something before it is cut short, -/
  firstRun : ∀ t ∈ w.diary.waiting, t ∈ w.run.1.map (·.ticket) ↔
    ∀ i ∈ w.run.1, i.ticket.step < t.step → i.raised = false
  /-- and what it does not interpret is never interpreted. -/
  never : ∀ t ∈ w.diary.waiting, ∀ more,
    t ∈ ((w.step (.act .run)).steps more).diary.played.map (·.ticket) ↔
      t ∈ w.run.1.map (·.ticket)
  /-- Nothing is queued after a run, whether it failed or not. -/
  emptied : w.session.run.1.queue = []
  /-- The statements that are listed are those of the entries that wait. -/
  dump : w.session.dump = w.diary.waiting.flatMap fun t => t.entry.statements.map (·.render)
  /-- What was shown are the first values of interpreted bare expressions, -/
  shown : w.diary.shown <+: w.diary.echoes
  /-- and the next one comes next. -/
  pop : w.session.pop?.map (·.1) = w.diary.echoes[w.diary.shown.length]?

theorem isSome_ticketFor (w : DiarySession) (source : String) (line : Int) :
    (w.ticketFor source line).isSome ↔ (w.session.add source line).2 = none := by
  unfold ticketFor Session.add
  dsimp only
  cases (check w.session.interactive source line).outcome <;> simp

theorem Faithful.lawful (h : w.Faithful) : w.Lawful := by
  have hrun (t : Ticket) (ht : t ∈ w.diary.waiting) : t ∈ w.queued := by
    rw [h.waiting]
    exact ht
  constructor
  · exact w.isSome_ticketFor
  · exact h.ordered
  · exact (List.sublist_append_left _ _).trans h.once
  · rw [← h.waiting]
    exact h.entries.symm
  · exact run_session h
  · exact fun t ht => Session.interpretAll_reaches _ h.queued_ordered (hrun t ht)
  · exact fun t ht more => played_later h (hrun t ht) more
  · exact Session.queue_run w.session
  · unfold Session.dump
    rw [← h.waiting, ← h.entries, List.flatMap_map]
  · exact ⟨_, h.results⟩
  · rw [← h.results, List.getElem?_append_right (Nat.le_refl _), Nat.sub_self]
    unfold Session.pop?
    cases w.session.results <;> rfl

end DiarySession

/-! ### Refused texts -/

/-- What a step answers. -/
inductive Answer where
  /-- What is seen of an action. -/
  | seen (observation : Observation)
  /-- What is queued. -/
  | listed (lines : List String)

namespace Session

/-- What a step answers. -/
def answer (s : Session) : Step → Answer
  | .act action => .seen (s.act action).2
  | .dump => .listed s.dump

/-- What some steps answer in order. -/
def answers (s : Session) : List Step → List Answer
  | [] => []
  | step :: steps => s.answer step :: (s.step step).answers steps

theorem length_answers (s : Session) (steps : List Step) : (s.answers steps).length = steps.length := by
  induction steps generalizing s with
  | nil => rfl
  | cons step steps ih => simp only [answers, List.length_cons, ih]

theorem answers_append (s : Session) (before more : List Step) :
    s.answers (before ++ more) = s.answers before ++ (before.foldl Session.step s).answers more := by
  induction before generalizing s with
  | nil => rfl
  | cons step before ih =>
    rw [List.cons_append, answers, ih]
    rfl

end Session

/-- The sessions are the same but for their notes: one has `xs` where the other has
    `ys`, and behind that the notes are the same. -/
def DifferInNotes (xs ys : Array Note) (a b : Session) : Prop :=
  ∃ newer, a.notes = xs ++ newer ∧ b = { a with notes := ys ++ newer }

namespace DifferInNotes

variable {xs ys : Array Note} {a b : Session}

theorem append (h : DifferInNotes xs ys a b) (notes : List Note) :
    DifferInNotes xs ys { a with notes := a.notes ++ notes } { b with notes := b.notes ++ notes } := by
  have hassoc (zs newer : Array Note) : zs ++ newer ++ notes = zs ++ (newer ++ notes) := by
    apply Array.toList_inj.mp
    simp
  obtain ⟨newer, hnotes, rfl⟩ := h
  refine ⟨newer ++ notes, ?_, ?_⟩
  · simp only [hnotes, hassoc]
  · simp only [hassoc]

theorem push (h : DifferInNotes xs ys a b) (note : Note) :
    DifferInNotes xs ys { a with notes := a.notes.push note } { b with notes := b.notes.push note } := by
  obtain ⟨newer, hnotes, rfl⟩ := h
  refine ⟨newer.push note, ?_, ?_⟩
  · simp only [hnotes, Array.append_push]
  · simp only [Array.append_push]

/-- Taking in how an entry ended adds the same notes to both. -/
theorem finish (h : DifferInNotes xs ys a b) (entry : Entry)
    (out : EStateM.Result Abort Machine Value) :
    DifferInNotes xs ys (a.finish entry out).1 (b.finish entry out).1 ∧
      (a.finish entry out).2 = (b.finish entry out).2 := by
  cases out with
  | ok v machine =>
    obtain ⟨newer, hnotes, rfl⟩ := h
    exact ⟨⟨newer, hnotes, rfl⟩, rfl⟩
  | error cut machine =>
    have hframes (frames : List Frame) :
        DifferInNotes xs ys { a with machine, frames } { b with machine, frames } := by
      obtain ⟨newer, hnotes, rfl⟩ := h
      exact ⟨newer, hnotes, rfl⟩
    have hmachine : DifferInNotes xs ys { a with machine } { b with machine } := by
      obtain ⟨newer, hnotes, rfl⟩ := h
      exact ⟨newer, hnotes, rfl⟩
    obtain ⟨fault, frames⟩ := cut
    cases fault with
    | issue issue line =>
      exact ⟨(hframes []).push (.failed frames.length (RuntimeError.ofIssue issue line frames).message),
        rfl⟩
    | overflow =>
      exact ⟨(hframes []).push (.failed frames.length (RuntimeError.ofOverflow frames).message), rfl⟩
    | unset name => exact ⟨hframes frames, rfl⟩
    | malformed => exact ⟨hmachine, rfl⟩
    | endless => exact ⟨hmachine, rfl⟩

theorem runEntry (h : DifferInNotes xs ys a b) (entry : Entry) :
    DifferInNotes xs ys (a.runEntry entry).1 (b.runEntry entry).1 ∧
      (a.runEntry entry).2 = (b.runEntry entry).2 := by
  -- what is interpreted does not see the notes
  have hout : Eval.program b.limits ⟨b.env, b.frames⟩ entry.statements .nil b.machine =
      Eval.program a.limits ⟨a.env, a.frames⟩ entry.statements .nil a.machine := by
    obtain ⟨newer, -, rfl⟩ := h
    rfl
  rw [Session.runEntry_eq, Session.runEntry_eq, hout]
  exact h.finish entry _

theorem runEntries (h : DifferInNotes xs ys a b) (entries : List Entry) :
    DifferInNotes xs ys (a.runEntries entries).1 (b.runEntries entries).1 ∧
      (a.runEntries entries).2 = (b.runEntries entries).2 := by
  let R (p q : Session × Option RunFailure) : Prop := DifferInNotes xs ys p.1 q.1 ∧ p.2 = q.2
  refine runInTurn_alike_same (R := R) ?failure ?entry ⟨h, rfl⟩
  case failure =>
    rintro p q ⟨-, hfailure⟩
    rw [hfailure]
  case entry =>
    rintro entry - a' b' ⟨hdiffer, -⟩
    exact hdiffer.runEntry entry

theorem run (h : DifferInNotes xs ys a b) :
    DifferInNotes xs ys a.run.1 b.run.1 ∧ a.run.2 = b.run.2 := by
  have hqueue : b.queue = a.queue := by
    obtain ⟨newer, -, rfl⟩ := h
    rfl
  have hempty : DifferInNotes xs ys { a with queue := [] } { b with queue := [] } := by
    obtain ⟨newer, hnotes, rfl⟩ := h
    exact ⟨newer, hnotes, rfl⟩
  unfold Session.run
  rw [hqueue]
  exact hempty.runEntries a.queue

theorem add (h : DifferInNotes xs ys a b) (source : String) (line : Int) :
    DifferInNotes xs ys (a.add source line).1 (b.add source line).1 ∧
      (a.add source line).2 = (b.add source line).2 := by
  have hchecked := h.append (check a.interactive source line).notes
  obtain ⟨newer, hnotes, rfl⟩ := h
  unfold Session.add
  dsimp only
  cases (check a.interactive source line).outcome with
  | error complaints =>
    obtain ⟨first, rest⟩ := complaints
    exact ⟨hchecked, rfl⟩
  | ok checked =>
    obtain ⟨entry, uses⟩ := checked
    let queue := a.queue ++ [entry]
    let localUses := a.localUses + uses
    have hqueued : DifferInNotes xs ys { a with queue, localUses }
        { a with queue, localUses, notes := ys ++ newer } := ⟨newer, hnotes, rfl⟩
    exact ⟨(hqueued.append (check a.interactive source line).notes).push
      (.queued entry.statements.length a.path line), rfl⟩

/-- The sessions take the same step and give the same answer. -/
theorem step (h : DifferInNotes xs ys a b) (step : Step) :
    DifferInNotes xs ys (a.step step) (b.step step) ∧ a.answer step = b.answer step := by
  cases step with
  | dump =>
    refine ⟨h, ?_⟩
    obtain ⟨newer, -, rfl⟩ := h
    rfl
  | act action =>
    cases action with
    | add source line =>
      obtain ⟨hdiffer, hrefusal⟩ := h.add source line
      simp only [Session.step, Session.answer, Session.act]
      exact ⟨hdiffer, congrArg (Answer.seen ∘ .added) hrefusal⟩
    | run =>
      obtain ⟨hdiffer, hfailure⟩ := h.run
      simp only [Session.step, Session.answer, Session.act]
      exact ⟨hdiffer, congrArg (Answer.seen ∘ .ran) hfailure⟩
    | pop =>
      obtain ⟨newer, hnotes, rfl⟩ := h
      obtain ⟨path, interactive, limits, machine, frames, queue, results, localUses, notes⟩ := a
      cases results <;> exact ⟨⟨newer, hnotes, rfl⟩, rfl⟩
    | takeOutput =>
      obtain ⟨newer, hnotes, rfl⟩ := h
      exact ⟨⟨newer, hnotes, rfl⟩, rfl⟩

theorem steps (h : DifferInNotes xs ys a b) (steps : List Step) :
    DifferInNotes xs ys (steps.foldl Session.step a) (steps.foldl Session.step b) ∧
      a.answers steps = b.answers steps := by
  induction steps generalizing a b with
  | nil => exact ⟨h, rfl⟩
  | cons step steps ih =>
    obtain ⟨hdiffer, hanswer⟩ := h.step step
    obtain ⟨hrest, hanswers⟩ := ih hdiffer
    refine ⟨hrest, ?_⟩
    rw [Session.answers, Session.answers, hanswer, hanswers]

end DifferInNotes

/-- A text that is refused changes nothing but the notes. -/
theorem differInNotes_of_refused {s : Session} {source : String} {line : Int}
    (h : (s.add source line).2 ≠ none) :
    DifferInNotes s.notes (s.notes ++ (check s.interactive source line).notes) s
      (s.step (.act (.add source line))) := by
  simp only [Session.step, Session.act]
  unfold Session.add at h ⊢
  dsimp only at h ⊢
  cases hcheck : (check s.interactive source line).outcome with
  | ok checked => simp [hcheck] at h
  | error complaints => exact ⟨#[], by simp, by simp⟩

theorem afterSteps_append (path : String) (interactive : Bool) (limits : Limits)
    (clock : Nat → Float) (before more : List Step) :
    Session.afterSteps path interactive limits clock (before ++ more) =
      more.foldl Session.step (Session.afterSteps path interactive limits clock before) :=
  List.foldl_append

/-- Every accepted entry is run at most once and in order.  After any steps, the
    entries that were interpreted were so in the order they were added, and none of
    them twice; what waits is interpreted by the next run, unless something before it
    is cut short there, and then never; the queue, what is listed of it and what is
    shown are as the diary tells.  A step that adds a text which is refused can be left
    out: all other steps answer what they answered, and the session is the same but
    for the notes about that text. -/
theorem entries_run_once_in_order (path : String) (interactive : Bool) (limits : Limits)
    (clock : Nat → Float) :
    (∀ steps,
      (DiarySession.after path interactive limits clock steps).session =
        Session.afterSteps path interactive limits clock steps ∧
      (DiarySession.after path interactive limits clock steps).Lawful) ∧
    ∀ (before : List Step) (source : String) (line : Int) (more : List Step),
      let s := Session.afterSteps path interactive limits clock before
      let new := Session.new path interactive limits clock
      (s.add source line).2 ≠ none →
        (new.answers (before ++ .act (.add source line) :: more)).eraseIdx before.length =
          new.answers (before ++ more) ∧
        DifferInNotes s.notes (s.notes ++ (check s.interactive source line).notes)
          (Session.afterSteps path interactive limits clock (before ++ more))
          (Session.afterSteps path interactive limits clock
            (before ++ .act (.add source line) :: more)) := by
  constructor
  · intro steps
    obtain ⟨hfaithful, hsession⟩ :=
      DiarySession.after_faithful path interactive limits clock steps
    exact ⟨hsession, hfaithful.lawful⟩
  · intro before source line more s new hrefused
    obtain ⟨hdiffer, hanswers⟩ := (differInNotes_of_refused hrefused).steps more
    have hs : before.foldl Session.step new = s := rfl
    constructor
    · have hlength := new.length_answers before
      rw [Session.answers_append, Session.answers_append, hs, List.eraseIdx_append_of_length_le
        (Nat.le_of_eq hlength), hlength, Nat.sub_self, Session.answers, List.eraseIdx_cons_zero,
        hanswers]
    · rw [afterSteps_append, afterSteps_append, List.foldl_cons]
      exact hdiffer

/-- A text that is refused, between one that waits and one that is cut short. -/
theorem refused_text_left_out :
    let new := Session.new "<in>" true ⟨20, 20⟩ fun _ => 0
    (new.answers [.act (.add "1" 1), .act (.add "1 +" 1), .act (.add "nil.x" 1), .dump, .act .run,
        .act .pop]).eraseIdx 1 =
      new.answers [.act (.add "1" 1), .act (.add "nil.x" 1), .dump, .act .run, .act .pop] := by
  have hrefused : ((Session.afterSteps "<in>" true ⟨20, 20⟩ (fun _ => 0)
      [.act (.add "1" 1)]).add "1 +" 1).2 ≠ none := by
    decide +kernel
  have hlaws := (entries_run_once_in_order "<in>" true ⟨20, 20⟩ fun _ => 0).2
  exact (hlaws [.act (.add "1" 1)] "1 +" 1 [.act (.add "nil.x" 1), .dump, .act .run, .act .pop]
    hrefused).1

end Treewalk
