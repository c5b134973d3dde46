import Muezzin.Daemon.Run
import Muezzin.Json.Printer
import Muezzin.Main
import Muezzin.Preview
import Muezzin.Proofs.Announcements
import Muezzin.Proofs.Conservation
import Muezzin.Proofs.Lateness
import Muezzin.Proofs.Perpetuity
import Muezzin.Proofs.Rehearsals
import Muezzin.Proofs.Fates
import Muezzin.Proofs.Repetitions
import Muezzin.Proofs.Warrants
import Muezzin.Proofs.Confluence
import Muezzin.Proofs.Days
import Muezzin.Proofs.Updates
import Muezzin.Proofs.Shutdown
import Muezzin.Proofs.HandDriving
import Muezzin.Proofs.LiveRehearsals
import Muezzin.Rehearsal.Live
import Muezzin.Text.Blank
import Muezzin.Timer.Script
import Muezzin.Timer.Sleeping
import Muezzin.Proofs.Sweeps
import Muezzin.Proofs.Collaborators
import Muezzin.Proofs.RoundTrips
import Muezzin.Proofs.ExitCodes
import Muezzin.Proofs.ScriptedAdvances
import Muezzin.Proofs.IdleRebuilds
import Muezzin.Proofs.TimeTexts
import Muezzin.Proofs.RawDays
import Muezzin.Proofs.SteppedAdvances
import Muezzin.Proofs.Driving
import Muezzin.Proofs.Enumerations
import Muezzin.Proofs.Grants
import Muezzin.Proofs.NearestQuarters
import Muezzin.Proofs.Validation
import Muezzin.Proofs.Voices
