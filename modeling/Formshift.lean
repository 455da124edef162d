import Formshift.Provenance
import Formshift.Reuse
import Formshift.Transparency
import Formshift.Accepted
import Formshift.Cancel
import Formshift.EventOrder
import Formshift.Guard
import Formshift.Lib.JsonPrefix
import Formshift.Lib.Sse
import Formshift.Pairing
import Formshift.PortTypes
import Formshift.Restart
import Formshift.Stream
import Formshift.ColorSeparation
import Formshift.Downsample
import Formshift.GraphFormat
import Formshift.InstallRequest
import Formshift.Lib.Base64
import Formshift.Lib.ElementTree
import Formshift.ManifestFormat
import Formshift.Runner
import Formshift.Startup
import Formshift.Svg
import Formshift.Deletion
import Formshift.Delivery
import Formshift.Downloads
import Formshift.Lib.Owners
import Formshift.JobProgress
import Formshift.Settled
import Formshift.CallsReturn
import Formshift.Isolation
