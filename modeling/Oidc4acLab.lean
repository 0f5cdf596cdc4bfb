import Oidc4acLab.Builder.FailedLoad
import Oidc4acLab.Builder.Rows
import Oidc4acLab.Builder.Constraints
import Oidc4acLab.Builder.Placeholders
import Oidc4acLab.Workbench.Errors
import Oidc4acLab.Discovery.Normalized
import Oidc4acLab.Jwt.Payload
import Oidc4acLab.Client.ParallelTabs
import Oidc4acLab.Client.RefreshRace
import Oidc4acLab.Client.NoTrace
import Oidc4acLab.Client.Rotation
import Oidc4acLab.Client.Ending
import Oidc4acLab.Email.SingleUse
import Oidc4acLab.Email.Flooding
import Oidc4acLab.Email.Cleanup
import Oidc4acLab.Checkout.Pinned
import Oidc4acLab.Benchmark.Balance
import Oidc4acLab.Benchmark.Telescope
import Oidc4acLab.Benchmark.Percentile
import Oidc4acLab.Result.Rendering
import Oidc4acLab.Totp.NoReplay
import Oidc4acLab.MessageSizes.Accounting
import Oidc4acLab.Client.Tokens
import Oidc4acLab.Totp.Helper
import Oidc4acLab.Builder.TitledRuns
import Oidc4acLab.Email.Delivery
import Oidc4acLab.Dev.Foreground
import Oidc4acLab.Dev.Sources
import Oidc4acLab.Runner.Concurrent
import Oidc4acLab.Realm.Fixtures
import Oidc4acLab.Realm.Demo
import Oidc4acLab.Builder.OptionRuns
