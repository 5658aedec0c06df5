import Timetable.Session
import Timetable.Trace
import Timetable.Written
import Timetable.Proofs.Order
import Timetable.Proofs.Selection
import Timetable.Proofs.Descent
import Timetable.Proofs.NextAfter
import Timetable.Proofs.Occurrences
import Timetable.Proofs.Layout
import Timetable.Proofs.Grammar
import Timetable.Proofs.Resolution
import Timetable.Proofs.Rejection
import Timetable.Proofs.Equality
import Timetable.Proofs.Rendering
import Timetable.Proofs.RoundTrip
import Timetable.Proofs.Progression
import Timetable.Proofs.Cycle
import Timetable.Proofs.Denotation
import Timetable.Proofs.Restart
import Timetable.Proofs.Isolation
import Timetable.Proofs.Questions
import Timetable.Proofs.Cuts
import Timetable.Proofs.Views
import Timetable.Proofs.Marks
import Timetable.Proofs.Union
import Timetable.Proofs.DefaultYears
import Timetable.Proofs.Succession
import Timetable.Proofs.Building
import Timetable.Proofs.Renaming
import Timetable.Proofs.Agreement
import Timetable.Proofs.Names
import Timetable.Proofs.Consultations
import Timetable.Proofs.Settling
import Timetable.Proofs.Weekdays
import Timetable.Proofs.Explanation
