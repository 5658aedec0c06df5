import Timetable.Text.Integer
import Timetable.Search

/-!
# Settings

Two settings come from the environment as text: the number of years that a search visits, and
whether to explain what is done.
-/

namespace Timetable

/-- Why the text of a setting is refused. -/
inductive SettingError where
  | notInteger (name value : Text)
  | notPositive (name value : Text)
  deriving DecidableEq, Repr

/-- The wording of a setting error. -/
def SettingError.message : SettingError → String
  | notInteger name value =>
    s!"Application environment variable {String.ofList name} must be an integer: " ++
      String.ofList value
  | notPositive name value =>
    s!"Application environment variable {String.ofList name} must be > 0: {String.ofList value}"

namespace Setting

/-- Reads a positive integer. -/
def readPositive (name value : Text) : Except SettingError Int :=
  match Text.Integer.read? value with
  | none => .error (.notInteger name value)
  | some n => if 1 ≤ n then .ok n else .error (.notPositive name value)

/-- Reads a switch: `true` and `yes` in any letter case turn it on.  No character outside ASCII
has a letter of these words as its lower case. -/
def readSwitch (value : Text) : Bool :=
  let word := (Text.strip value).map Char.toLower
  word == "true".toList || word == "yes".toList

end Setting

/-- The settings as the environment gives them; `none` is unset. -/
structure Environment where
  maxSearchYears : Option Text
  trace : Option Text
  deriving DecidableEq, Repr

namespace Environment

/-- The environment where nothing is set. -/
def unset : Environment :=
  ⟨none, none⟩

/-- The name of the setting for the number of years that a search visits. -/
def maxSearchYearsName : Text :=
  "CRON_SCHEDULE_MAX_SEARCH_YEARS".toList

/-- The number of years that a search visits after the first. -/
def yearLimit (env : Environment) : Except SettingError Int :=
  match env.maxSearchYears with
  | none => .ok defaultYearLimit
  | some value => Setting.readPositive maxSearchYearsName value

/-- The environment gives no limit below one. -/
theorem one_le_of_yearLimit {env : Environment} {limit : Int} (h : env.yearLimit = .ok limit) :
    1 ≤ limit := by
  rw [yearLimit] at h
  split at h
  · cases h
    decide
  · rw [Setting.readPositive] at h
    split at h
    · cases h
    · split at h
      · cases h
        assumption
      · cases h

/-- The limit of a search: its own, or else that of the environment, which is not looked at
otherwise. -/
def limitFor (env : Environment) : Option Int → Except SettingError Int
  | some limit => .ok limit
  | none => env.yearLimit

/-- Whether to explain what is done. -/
def traces (env : Environment) : Bool :=
  match env.trace with
  | none => false
  | some value => Setting.readSwitch value

end Environment
end Timetable
