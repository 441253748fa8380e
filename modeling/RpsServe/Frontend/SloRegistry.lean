import RpsServe.Lib.Dict
import RpsServe.Lib.Except
import Mathlib.Algebra.Order.Field.Rat

/-!
# The registry of objectives

`SLORegistry` reads the run logs of earlier experiments and keeps, for the id of each logged
request, the time that the request took. Times are rational numbers, and a line of a log is
taken as parsed.
-/

namespace RpsServe.Frontend

/-- What the frontend raises. -/
inductive FrontendError where
  | fileNotFound
  | keyError
  | valueError
  | attributeError
  | engineDead
deriving DecidableEq, Repr

/-- A line of a log: white space, text that is no JSON, or an object with the fields that are
read of it. -/
inductive LogLine where
  | empty
  | malformed
  | entry (id : Option String) (arrivalTime finishedTime : Option ℚ)

/-- `SLORegistry`. -/
structure SLORegistry where
  reqToSlo : Dict String ℚ

namespace SLORegistry

/-- What one line adds: nothing, unless it has a nonempty id and both times. -/
def loadLine (reqToSlo : Dict String ℚ) : LogLine → Dict String ℚ
  | .entry (some reqId) (some arrival) (some finished) =>
    if reqId = "" then reqToSlo else reqToSlo.set reqId (finished - arrival)
  | _ => reqToSlo

/-- `SLORegistry.__init__` over its files; a file that does not exist is `none`. -/
def load (files : List (Option (List LogLine))) : Except FrontendError SLORegistry := do
  let reqToSlo ← files.foldlM
    (fun reqToSlo file =>
      match file with
      | none => .error .fileNotFound
      | some lines => .ok (lines.foldl loadLine reqToSlo))
    Dict.empty
  return { reqToSlo }

variable (registry : SLORegistry) (reqId : String)

/-- `SLORegistry.get_slo`. -/
def getSlo : Except FrontendError ℚ :=
  match registry.reqToSlo.get? reqId with
  | none => .error .keyError
  | some slo => .ok slo

/-- `SLORegistry.get_slo_safe`. -/
def getSloSafe (default : ℚ := 0) : ℚ := (registry.reqToSlo.get? reqId).getD default

/-- The line registers the id with this objective. -/
def Registers (reqId : String) (slo : ℚ) (line : LogLine) : Prop :=
  reqId ≠ "" ∧ ∃ arrival finished,
    line = .entry (some reqId) (some arrival) (some finished) ∧ slo = finished - arrival

/-- A line writes the objective that it registers, and no other. -/
theorem get?_loadLine {reqToSlo : Dict String ℚ} {line : LogLine} {reqId : String} {slo : ℚ}
    (h : (loadLine reqToSlo line).get? reqId = some slo) :
    Registers reqId slo line ∨ reqToSlo.get? reqId = some slo := by
  unfold loadLine at h
  split at h
  · rename_i id arrival finished
    split at h
    · exact .inr h
    · rename_i hid
      rw [Dict.get?_set] at h
      split at h
      · rename_i heq
        subst heq
        exact .inl ⟨hid, arrival, finished, rfl, (Option.some.inj h).symm⟩
      · exact .inr h
  · exact .inr h

/-- The objective of an id is the duration of a logged request with this id. -/
theorem registers_of_load {files : List (Option (List LogLine))} {registry : SLORegistry}
    (h : load files = .ok registry) {reqId : String} {slo : ℚ}
    (hslo : registry.reqToSlo.get? reqId = some slo) :
    ∃ lines, some lines ∈ files ∧ ∃ line ∈ lines, Registers reqId slo line := by
  obtain ⟨reqToSlo, hfold, hret⟩ := bind_eq_ok.mp h
  cases hret
  have hlogged := foldlM_invariant (I := fun d => ∀ slo, d.get? reqId = some slo →
    ∃ lines, some lines ∈ files ∧ ∃ line ∈ lines, Registers reqId slo line) hfold
    (fun slo hslo => by cases hslo) ?_
  · exact hlogged slo hslo
  · intro file hfile d d' hd hround slo hslo
    cases file with
    | none => cases hround
    | some lines =>
      cases hround
      have hlines : ∀ (l : List LogLine) (d : Dict String ℚ),
          (l.foldl loadLine d).get? reqId = some slo →
            (∃ line ∈ l, Registers reqId slo line) ∨ d.get? reqId = some slo := by
        intro l
        induction l with
        | nil => exact fun d hd => .inr hd
        | cons line rest ih =>
          intro d hget
          rcases ih _ hget with ⟨line', hline', hreg⟩ | hget
          · exact .inl ⟨line', List.mem_cons_of_mem line hline', hreg⟩
          · exact (get?_loadLine hget).imp_left fun hreg => ⟨line, List.mem_cons_self, hreg⟩
      rcases hlines lines d hslo with hreg | hold
      · exact ⟨lines, hfile, hreg⟩
      · exact hd slo hold

end SLORegistry

end RpsServe.Frontend
