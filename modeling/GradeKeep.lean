import GradeKeep.Core.HalfAway
import GradeKeep.Core.ListRatio
import GradeKeep.Core.LastWriter
import GradeKeep.Core.Trace
import GradeKeep.Core.SwiftDouble
import GradeKeep.Core.Firestore
import GradeKeep.Core.Query
import GradeKeep.Core.Characters
import GradeKeep.Core.JsObject
import GradeKeep.Core.JsOrder
import GradeKeep.Core.JsonText
import GradeKeep.App.Schema
import GradeKeep.App.Listeners
import GradeKeep.App.Forms
import GradeKeep.App.System
import GradeKeep.App.Tables
import GradeKeep.App.Navigation
import GradeKeep.App.LocalViews
import GradeKeep.App.Storyboard
import GradeKeep.Web.AddCourse
import GradeKeep.Web.PostCourse
import GradeKeep.Spec.Gradebook
import GradeKeep.Results.WellFormed
import GradeKeep.Results.Invariant
import GradeKeep.Results.DirectRuns
import GradeKeep.Results.StoreTyping
import GradeKeep.Results.Orphans
import GradeKeep.Results.Convergence
import GradeKeep.Results.ShownGrade
import GradeKeep.Results.Division
import GradeKeep.Results.FormGuard
import GradeKeep.Results.SwipeAction
import GradeKeep.Results.Cascade
import GradeKeep.Results.GradeBounds
import GradeKeep.Results.MeanLaws
import GradeKeep.Results.MorePoints
import GradeKeep.Results.ConcurrentEdits
import GradeKeep.Results.ScreenScope
import GradeKeep.Results.OpenScreens
import GradeKeep.Results.RowNames
import GradeKeep.Results.PostedCourse
import GradeKeep.Results.LoggedCourse
import GradeKeep.Results.Records
import GradeKeep.Results.Refinement
import GradeKeep.Results.Rendering
import GradeKeep.Results.ShownTables
import GradeKeep.Results.Determinacy
import GradeKeep.Results.Settling
import GradeKeep.Results.Visits
import GradeKeep.Results.LocalKnowledge
import GradeKeep.Results.Provenance
import GradeKeep.Results.LocalConvergence
import GradeKeep.Results.Traps
