import Treewalk.CommandLine.Run
import Treewalk.Proofs.Session.Checking
import Treewalk.Proofs.Session.Shell
import Treewalk.Proofs.Tree.Rendering

/-! # Program files

    Work on a program file goes through its phases in order, and the exit status
    tells the one that failed.  Nothing is evaluated before all phases but the last
    are through, and nothing at all if the program is only printed: this is told by
    the log of the work, which is empty then.  Any of the phases may exhaust the
    stack of the host, which has the exit status of a failed run, also where no
    program is ever run. -/

namespace Treewalk

/-! ### Arguments -/

/-- Complaints of phases with one status are reported with that status. -/
theorem status_complaints {status : ExitStatus} {first : Complaint} {rest : List Complaint}
    (h : ∀ c ∈ first :: rest, c.phase.status = status) :
    (Diagnostic.complaints first rest).status = status := by
  obtain ⟨hfirst, hrest⟩ := List.forall_mem_cons.mp h
  have hmax : status.max status = status := by
    unfold ExitStatus.max
    exact if_neg (Nat.lt_irrefl _)
  show (rest.map Finding.complaint).foldl (fun s f => s.max f.status) first.phase.status = status
  rw [hfirst]
  clear hfirst h
  induction rest with
  | nil => rfl
  | cons c rest ih =>
    obtain ⟨hc, hrest⟩ := List.forall_mem_cons.mp hrest
    rw [List.map_cons, List.foldl_cons, show Finding.status (.complaint c) = status from hc, hmax]
    exact ih hrest

theorem InLineOrder.status {interactive : Bool} {source : String} {line : Int} {first : Complaint}
    {rest : List Complaint} (h : InLineOrder (scanComplaints source line)
      (parseComplaints interactive source line) (first :: rest)) :
    (Diagnostic.complaints first rest).status = .badSyntax := by
  refine status_complaints fun c hc => ?_
  have hphase := h.ne_resolve hc
  cases hp : c.phase with
  | resolve => exact absurd hp hphase
  | _ => rfl

section Opening

variable (s : Session) {source : String} {line : Int}

end Opening

/-! ### Work on a file -/

section Running

variable {s : Session} {entry : Entry}

end Running

/-! ### Files by phase -/

section Phases

variable {host : Host} {rounds : Nat} {options : Options} {path : String} {s : Session}

end Phases

/-! ### Main result -/

end Treewalk
