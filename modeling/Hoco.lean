import Hoco.HocotextAggregate
import Hoco.HocotextAhead
import Hoco.HocotextMethod
import Hoco.HocotextWindow
import Hoco.PglzCompress
import Hoco.PglzDecompress
import Hoco.RleBounds
import Hoco.RleRoundTrip
import Hoco.RleShape
import Hoco.RleStaging
import Hoco.TadocExpand
import Hoco.TadocRecords
import Hoco.TadocSequitur
import Hoco.ToastFlatten
import Hoco.ToastRewrite
import Hoco.ToastSlice
