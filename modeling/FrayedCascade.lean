import FrayedCascade.Locator
import FrayedCascade.Phases
import FrayedCascade.Map
import FrayedCascade.Query
import FrayedCascade.Codec
import FrayedCascade.Plan
import FrayedCascade.Build
import FrayedCascade.Staging
import FrayedCascade.PhaseLoop
import FrayedCascade.Locate
import FrayedCascade.RoundTrip
import FrayedCascade.Reencode
