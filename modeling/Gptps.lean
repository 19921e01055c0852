import Gptps.DurableRewrite
import Gptps.DurableRetraction
import Gptps.OrchGates
import Gptps.StatsDrift
import Gptps.BalanceClosing
import Gptps.TransportRest
import Gptps.BoundedArenas
import Gptps.DeadLetters
import Gptps.HeldRetries
import Gptps.TypeRemoval
import Gptps.SchedulerReset
import Gptps.MeasureMerge
import Gptps.RemoteCodec
import Gptps.TypoDistance
