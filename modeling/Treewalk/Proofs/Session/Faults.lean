import Treewalk.Proofs.Faults
import Treewalk.Proofs.Scope.Sites
import Treewalk.Proofs.Session.Provenance

/-! # Where diagnostics point

    Complaints about a text point at its tokens, at characters that belong to no token,
    or at its end.  Errors of a run point at tokens of the texts that the session
    accepted: code that a run takes up is somewhere in them, however long ago they were
    added (`Session.Rooted`). -/

namespace Treewalk

/-! ### Complaints -/

/-- What there is in a text that a complaint can be about. -/
structure Marks where
  /-- The tokens. -/
  token : Token → Prop
  /-- The issues of the scan, with their lines. -/
  issue : ScanIssue → Int → Prop
  /-- The line that the text ends on. -/
  ending : Int → Prop

/-- What a scan found. -/
def Scan.marks (found : Scan) : Marks where
  token t := t ∈ found.tokens
  issue i line := (i, line) ∈ found.issues
  ending line := line = found.endLine

/-- The complaint is about something in the text. -/
inductive Complaint.PointsAt (marks : Marks) : Complaint → Prop
  /-- An issue of the scan, on the line where it was found. -/
  | scan {issue line} : marks.issue issue line →
      PointsAt marks ⟨.scan, line, "", issue.message⟩
  /-- An error of the parser at a token. -/
  | parse {t issue} : marks.token t →
      PointsAt marks ⟨.parse, t.line, near t.text, ParseIssue.message issue⟩
  /-- An error of the parser at the end of the text. -/
  | parseEnd {line issue} : marks.ending line →
      PointsAt marks ⟨.parse, line, atEnd, ParseIssue.message issue⟩
  /-- An error of resolution at a token. -/
  | resolve {t issue} : marks.token t →
      PointsAt marks ⟨.resolve, t.line, near t.text, ResolveIssue.message issue⟩

section Check

variable {interactive : Bool} {source : String} {line : Int}

theorem points_ofParse {e : ParseError}
    (he : e ∈ (parse interactive (scan source line).tokens).errors) :
    (Complaint.ofParse (scan source line).endLine e).PointsAt (scan source line).marks := by
  unfold Complaint.ofParse
  cases hsite : e.site with
  | none => exact .parseEnd rfl
  | some t => exact .parse (site_mem_of_parse he hsite)

theorem points_ofResolve (hparsed : (parse interactive (scan source line).tokens).errors = [])
    {e : ResolveError}
    (he : e ∈ (resolve (parse interactive (scan source line).tokens).statements).errors) :
    (Complaint.ofResolve e).PointsAt (scan source line).marks := by
  obtain ⟨herrors, -⟩ := resolve_reports fun _ => (tokens_subset_of_parse hparsed ·)
  obtain ⟨t, ht, htext, hline⟩ := herrors e he
  unfold Complaint.ofResolve
  rw [← htext, ← hline]
  exact .resolve ht

/-- All complaints about a text are about something in it. -/
theorem points_of_check {first : Complaint} {rest : List Complaint}
    (h : (check interactive source line).outcome = .error (first, rest)) :
    ∀ c ∈ first :: rest, c.PointsAt (scan source line).marks := by
  unfold check at h
  simp only at h
  split at h
  · next first' rest' hsorted =>
    cases h
    intro c hc
    have hperm := sortBy_perm (fun a b : Complaint => decide (a.line ≤ b.line))
      ((scan source line).issues.map Complaint.ofScan ++
        (parse interactive (scan source line).tokens).errors.map
          (Complaint.ofParse (scan source line).endLine))
    have hmem := hperm.mem_iff.mp (show c ∈ Complaint.byLine _ from hsorted ▸ hc)
    rcases List.mem_append.mp hmem with hmem | hmem
    · obtain ⟨issue, hissue, rfl⟩ := List.mem_map.mp hmem
      exact .scan hissue
    · obtain ⟨e, he, rfl⟩ := List.mem_map.mp hmem
      exact points_ofParse he
  · next hsorted =>
    have hnil := byLine_eq_nil hsorted
    have hparsed := List.map_eq_nil_iff.mp (List.append_eq_nil_iff.mp hnil).2
    split at h
    · next first' rest' hresolved =>
      cases h
      intro c hc
      obtain ⟨e, he, rfl⟩ := List.mem_map.mp (hresolved ▸ hc)
      exact points_ofResolve hparsed he
    · cases h

end Check

/-- What a session finds wrong with a text are complaints about something in it. -/
theorem Session.add_points {s : Session} {source : String} {line : Int} {d : Diagnostic}
    (h : (s.add source line).2 = some d) :
    ∀ f ∈ d.findings, ∃ c, f = .complaint c ∧ c.PointsAt (scan source line).marks := by
  unfold add at h
  dsimp only at h
  split at h
  · next first rest hcheck =>
    cases h
    have hpoints := points_of_check hcheck
    intro f hf
    have hmem : f ∈ (first :: rest).map Finding.complaint := hf
    obtain ⟨c, hc, rfl⟩ := List.mem_map.mp hmem
    exact ⟨c, rfl, hpoints c hc⟩
  · cases h

/-! ### Errors of runs -/

/-- The error shows at a token among `T`, and the calls in its trace are closed by
    parentheses among `T`.  Evaluation that is nested too deeply has no token of its own:
    its line is that of the innermost call. -/
inductive RuntimeError.PointsAt (T : Token → Prop) : RuntimeError → Prop
  | issue {issue t frames} : T t → RuntimeIssue.ShowsAt issue t.lexeme →
      (∀ f ∈ frames, T (sym .rightParen f.line)) → PointsAt T (.ofIssue issue t.line frames)
  | overflow {frames} : (∀ f ∈ frames, T (sym .rightParen f.line)) →
      PointsAt T (.ofOverflow frames)

/-- All that the session ran and keeps is in texts whose tokens are among `T`, and calls
    that were left open by an earlier run are closed by such tokens. -/
structure WatchedSession.Rooted (T : Token → Prop) (texts : List Resolution) (w : WatchedSession) :
    Prop where
  resolved : Resolved texts
  grounded : w.Grounded true texts
  tokens : ∀ r ∈ texts, ∀ t ∈ tokensOfStmts r.statements, T t
  frames : ∀ f ∈ w.session.frames, T (sym .rightParen f.line)

section Runs

variable {T : Token → Prop} {texts : List Resolution}

/-- What a run takes up is in the texts, and so are its tokens. -/
theorem tokens_of_taken (htexts : ∀ r ∈ texts, ∀ t ∈ tokensOfStmts r.statements, T t)
    {m : Machine} {h : History} (hsite : OnSite (programs texts) (m, h)) {ph : Code}
    (htaken : Taken h ph) : ∀ t ∈ ph.tokens, T t := by
  have hsited : ∃ env, Sited (programs texts) env ph := by
    cases ph with
    | expr e =>
      obtain ⟨ctx, store, hevent⟩ := htaken
      exact ⟨ctx.env, (hsite.events _ hevent).1⟩
    | stmt s =>
      obtain ⟨ctx, store, hevent⟩ := htaken
      exact ⟨ctx.env, (hsite.events _ hevent).1⟩
  obtain ⟨env, a, zones, hfound, -⟩ := hsited
  obtain ⟨program, hprogram, hway⟩ := Option.bind_eq_some_iff.mp hfound
  obtain ⟨r, hr, rfl⟩ := List.mem_map.mp (List.mem_of_getElem? hprogram)
  exact fun t ht => htexts r hr t ((located_of_phraseAt hway).tokens_subset ht)

/-- How a run of an entry ends for the session, if its faults are accounted for and all
    that it took up is in the texts. -/
theorem Session.finish_points {s : Session} (entry : Entry) {before : History}
    {out : EStateM.Result Abort (Machine × History) Value}
    (htexts : ∀ r ∈ texts, ∀ t ∈ tokensOfStmts r.statements, T t)
    (hframes : ∀ f ∈ s.frames, T (sym .rightParen f.line)) (hout : Accounts before s.frames out)
    (hsite : OnSite (programs texts) (machineOf (forget out), logOf out)) :
    (∀ f ∈ (s.finish entry (forget out)).1.frames, T (sym .rightParen f.line)) ∧
      ∀ e, (s.finish entry (forget out)).2 = some (.error e) → e.PointsAt T := by
  cases hout with
  | ok _ => exact ⟨hframes, nofun⟩
  | @error cut s' _ hfault hcalls =>
    have hopen : ∀ f ∈ cut.frames, T (sym .rightParen f.line) := by
      intro f hf
      rcases hcalls f hf with hf | ⟨callee, args, htaken⟩
      · exact hframes f hf
      · exact tokens_of_taken htexts hsite htaken _ (Code.mem_tokens_of_site? rfl)
    obtain ⟨fault, frames⟩ := cut
    cases fault with
    | issue issue line =>
      refine ⟨nofun, ?_⟩
      rintro e ⟨⟩
      obtain ⟨ph, t, htaken, ht, hshows, rfl⟩ := hfault issue line rfl
      have hknown := tokens_of_taken htexts hsite htaken t (Code.mem_tokens_of_site? ht)
      exact .issue hknown hshows hopen
    | overflow =>
      refine ⟨nofun, ?_⟩
      rintro e ⟨⟩
      exact .overflow hopen
    | unset name => exact ⟨hopen, nofun⟩
    | malformed => exact ⟨hframes, nofun⟩
    | endless => exact ⟨hframes, nofun⟩

namespace WatchedSession

variable {w : WatchedSession}

theorem runEntry_rooted (h : w.Rooted T texts) {entry : Entry}
    (hentry : entry.statements ∈ programs texts) :
    (w.runEntry entry).1.Rooted T texts ∧
      ∀ e, (w.runEntry entry).2 = some (.error e) → e.PointsAt T := by
  have hgrounded := runEntry_grounded h.resolved h.grounded hentry
  have hsite := (stays_program h.resolved w.session.limits
    ⟨w.session.env, w.session.frames⟩ .nil h.grounded.state (sited_of_mem hentry)).outcome.1
  have haccounts := accounts_program w.session.limits ⟨w.session.env, w.session.frames⟩
    entry.statements .nil (w.session.machine, w.history)
  obtain ⟨hframes, hpoints⟩ := Session.finish_points entry h.tokens h.frames haccounts hsite
  exact ⟨⟨h.resolved, hgrounded, h.tokens, hframes⟩, hpoints⟩

theorem runEntries_rooted (h : w.Rooted T texts) {entries : List Entry}
    (hentries : ∀ entry ∈ entries, entry.statements ∈ programs texts) :
    (w.runEntries entries).1.Rooted T texts ∧
      ∀ e, (w.runEntries entries).2 = some (.error e) → e.PointsAt T := by
  let P (p : WatchedSession × Option RunFailure) : Prop :=
    p.1.Rooted T texts ∧ ∀ e, p.2 = some (.error e) → e.PointsAt T
  refine runInTurn_preserves (P := P) ?_ ⟨h, nofun⟩
  exact fun entry hentry _ hw => runEntry_rooted hw.1 (hentries entry hentry)

theorem run_rooted (h : w.Rooted T texts) :
    w.run.1.Rooted T texts ∧ ∀ e, w.run.2 = some (.error e) → e.PointsAt T := by
  have hempty : Rooted T texts { w with session := { w.session with queue := [] } } :=
    ⟨h.resolved, ⟨h.grounded.mode, h.grounded.state, nofun⟩, h.tokens, h.frames⟩
  exact runEntries_rooted hempty h.grounded.queue

end WatchedSession

end Runs

/-! ### Sessions -/

theorem Resolved.append {texts more : List Resolution} (h : Resolved texts) (h' : Resolved more) :
    Resolved (texts ++ more) := by
  intro program hprogram
  rw [programs_append] at hprogram
  exact (List.mem_append.mp hprogram).elim (h program) (h' program)

namespace Session

/-- The session runs texts whose tokens are among `T`. -/
def Rooted (T : Token → Prop) (s : Session) : Prop :=
  ∃ (w : WatchedSession) (texts : List Resolution), w.session = s ∧ w.Rooted T texts

variable {T : Token → Prop} {s : Session}

theorem Rooted.run (h : s.Rooted T) :
    s.run.1.Rooted T ∧ ∀ e, s.run.2 = some (.error e) → e.PointsAt T := by
  obtain ⟨w, texts, rfl, hw⟩ := h
  rw [← w.run_erases]
  obtain ⟨hrun, hpoints⟩ := WatchedSession.run_rooted hw
  exact ⟨⟨w.run.1, texts, rfl, hrun⟩, hpoints⟩

theorem frames_add (s : Session) (source : String) (line : Int) :
    (s.add source line).1.frames = s.frames := by
  unfold add
  dsimp only
  split <;> rfl

/-- A text that is accepted keeps its tokens. -/
theorem tokens_of_accepted {interactive : Bool} {source : String} {line : Int} {r : Resolution}
    (h : r ∈ (Action.add source line).accepted? interactive) :
    tokensOfStmts r.statements ⊆ (scan source line).tokens := by
  unfold Action.accepted? at h
  dsimp only at h
  split at h
  · next checked hcheck =>
    cases h
    have hparsed := (accepts_of_check hcheck).parsed
    rw [(resolve_reports fun _ => id).2]
    exact tokens_subset_of_parse hparsed
  · cases h

theorem Rooted.add (h : s.Rooted T) {source : String} {line : Int}
    (htokens : ∀ t ∈ (scan source line).tokens, T t) : (s.add source line).1.Rooted T := by
  obtain ⟨w, texts, rfl, hw⟩ := h
  have hgrounded := WatchedSession.add_grounded hw.grounded source line
  refine ⟨_, _, rfl, ⟨hw.resolved.append ?_, hgrounded, ?_, ?_⟩⟩
  · rw [← acceptedTexts_singleton]
    exact resolved_acceptedTexts true [.add source line]
  · intro r hr t ht
    rcases List.mem_append.mp hr with hr | hr
    · exact hw.tokens r hr t ht
    · exact htokens t (tokens_of_accepted (Option.mem_toList.mp hr) ht)
  · rw [frames_add]
    exact hw.frames

/-- Neither the output nor the values to be shown have to do with tokens. -/
theorem Rooted.taken (h : s.Rooted T) (printed : Array String) (results : List String) :
    Rooted T { s with machine := { s.machine with printed }, results } := by
  obtain ⟨w, texts, rfl, hw⟩ := h
  obtain ⟨hmode, hstate, hqueue⟩ := hw.grounded
  refine ⟨{ w with session := _ }, texts, rfl, ⟨hw.resolved, ?_, hw.tokens, hw.frames⟩⟩
  exact ⟨hmode, ⟨hstate.store, hstate.events⟩, hqueue⟩

theorem new_rooted (path : String) (limits : Limits) (clock : Nat → Float) :
    (new path true limits clock).Rooted T := by
  refine ⟨.new path true limits clock, [], rfl, ⟨nofun, ?_, nofun, nofun⟩⟩
  exact WatchedSession.new_grounded path true limits clock

end Session

end Treewalk
