import Toolpath.File.Store
import Toolpath.Problem.Json
import Toolpath.Scalar.Real
import Toolpath.Main
import Toolpath.Proofs.PeakTheorems
import Toolpath.Proofs.ProfileTheorems
import Toolpath.Proofs.TrackTheorems
import Toolpath.Proofs.InterpretationTheorems
import Toolpath.Proofs.PassageTheorems
import Toolpath.Proofs.SamplerTheorems
import Toolpath.Proofs.SettingsTheorems
import Toolpath.Proofs.SimulationTheorems
import Toolpath.Proofs.SingleOrderTheorems
import Toolpath.Proofs.SinglePackingTheorems
import Toolpath.Proofs.RoundingTheorems
import Toolpath.Proofs.SingleRoundingTheorems
import Toolpath.Proofs.LimitTheorems
import Toolpath.Proofs.CrestTheorems
import Toolpath.Proofs.DefinednessTheorems
import Toolpath.Proofs.VertexTheorems
import Toolpath.Proofs.OutcomeTheorems
import Toolpath.Proofs.BatchTheorems
import Toolpath.Proofs.SpanTheorems
import Toolpath.Proofs.LayoutTheorems
import Toolpath.Proofs.ReadbackTheorems
import Toolpath.Proofs.RestTheorems
import Toolpath.Proofs.PolylineTheorems
import Toolpath.Proofs.PathTheorems
import Toolpath.Proofs.RotationTheorems
import Toolpath.Proofs.ArrivalTheorems
import Toolpath.Proofs.IsotoneTheorems
import Toolpath.Proofs.TimingTheorems
import Toolpath.Proofs.CountTheorems
import Toolpath.Proofs.SingleIsotoneTheorems
import Toolpath.Proofs.ChronologyTheorems
import Toolpath.Proofs.LookupTheorems
import Toolpath.Proofs.StrictnessTheorems
import Toolpath.Proofs.PartitionTheorems
import Toolpath.Proofs.SpeedTheorems
import Toolpath.Proofs.ArcTheorems
import Toolpath.Proofs.JunctionTheorems
import Toolpath.Proofs.ComparisonTheorems
import Toolpath.Proofs.FeedTheorems
import Toolpath.Proofs.ModeTheorems
import Toolpath.Proofs.OffsetTheorems
import Toolpath.Proofs.TranslationTheorems
import Toolpath.Proofs.TransportTheorems
import Toolpath.Proofs.ReversalTheorems
import Toolpath.Proofs.DropTheorems
import Toolpath.Proofs.AccountTheorems
import Toolpath.Proofs.FormatTheorems
import Toolpath.Proofs.RatioTheorems
import Toolpath.Proofs.DoubleTheorems
import Toolpath.Proofs.SpellingTheorems
import Toolpath.Proofs.TenthTheorems
import Toolpath.Proofs.CodeTheorems
import Toolpath.Proofs.ContinuationTheorems
import Toolpath.Proofs.SingleRangeTheorems
import Toolpath.Proofs.BoxTheorems
import Toolpath.Proofs.TallyTheorems
import Toolpath.Proofs.AbsorptionTheorems
import Toolpath.Proofs.OverflowTheorems
import Toolpath.Proofs.ResolutionTheorems
import Toolpath.Proofs.SplitTheorems
import Toolpath.Proofs.ReorderingTheorems
import Toolpath.Proofs.RadiusTheorems
import Toolpath.Proofs.StoreTheorems
import Toolpath.Proofs.PatternTheorems
import Toolpath.Proofs.ShortestTheorems
import Toolpath.Proofs.NumeralTheorems
import Toolpath.Proofs.DocumentTheorems
import Toolpath.Proofs.LexemeTheorems
import Toolpath.Proofs.StatementTheorems
import Toolpath.Proofs.SectionTheorems
import Toolpath.Proofs.RecordTheorems
import Toolpath.Proofs.SavingTheorems
import Toolpath.Proofs.VelocityTheorems
import Toolpath.Proofs.DatumTheorems
import Toolpath.Proofs.NearestTheorems
import Toolpath.Proofs.SignTheorems
import Toolpath.Proofs.SingleValueTheorems
import Toolpath.Proofs.OppositeTheorems
import Toolpath.Proofs.TurnTheorems
import Toolpath.Proofs.QuotientTheorems
import Toolpath.Proofs.ClockTheorems
import Toolpath.Proofs.ReportTheorems
import Toolpath.Proofs.PlaceTheorems
import Toolpath.Proofs.ChordTheorems
