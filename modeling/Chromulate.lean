import Chromulate.Cache.Invalidation
import Chromulate.Cache.NoCache
import Chromulate.Cache.Recording
import Chromulate.Cache.Revalidation
import Chromulate.Cache.Strictness
import Chromulate.Cache.Survival
import Chromulate.Cache.Variants
import Chromulate.Client.Builder
import Chromulate.Compression.Rejection
import Chromulate.Concurrency.Burst
import Chromulate.Concurrency.RetryAfter
import Chromulate.Concurrency.Wakeup
import Chromulate.Cookies.Secure
import Chromulate.Cookies.Sequence
import Chromulate.Cookies.SiteIsolation
import Chromulate.Dns.SingleFlight
import Chromulate.H3.AltSvc
import Chromulate.H3.ClientHello
import Chromulate.Header.Wire
import Chromulate.Http.Afresh
import Chromulate.Http.Body
import Chromulate.Http.Bypass
import Chromulate.Http.Clearing
import Chromulate.Http.Conditions
import Chromulate.Http.CookieHops
import Chromulate.Http.Handoff
import Chromulate.Http.HstsHops
import Chromulate.Http.HstsLonger
import Chromulate.Http.HstsPolicies
import Chromulate.Http.Minting
import Chromulate.Http.PoolRoom
import Chromulate.Http.RateLimit
import Chromulate.Http.Releasing
import Chromulate.Http.Retry
import Chromulate.Http.Stop
import Chromulate.Http.Target
import Chromulate.Http.ValidatorHistory
import Chromulate.Proxy.Tunnel
