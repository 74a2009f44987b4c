import AffineSchedule.CommandLine.Directory
import AffineSchedule.Main
import AffineSchedule.Proofs.Collection
import AffineSchedule.Proofs.Divisor
import AffineSchedule.Proofs.Schedule.Bounds
import AffineSchedule.Proofs.Schedule.ForestMaps
import AffineSchedule.Proofs.Schedule.Preferences
import AffineSchedule.Proofs.Schedule.RowSearch
