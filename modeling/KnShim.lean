import KnShim.HashTable.Reachable
import KnShim.HashTable.Probing
import KnShim.Registry.Keys
import KnShim.Database.RoundTrip
import KnShim.LeafHook.Chain
import KnShim.LeafHook.StubArea
import KnShim.LeafHook.StubLayout
import KnShim.LeafHook.Verbatim
import KnShim.AndrLeaf.Symbols
import KnShim.AndrLeaf.Image
import KnShim.AndrLeaf.ScanOrder
import KnShim.AndrLeaf.Bounds
import KnShim.AndrLeaf.Rel
import KnShim.AndrLeaf.Linked
import KnShim.AndrLeaf.Free
import KnShim.AndrLeaf.Lifecycle
import KnShim.AndrLeaf.Lookup
import KnShim.NxArchive.Confined
import KnShim.NxArchive.Heads
import KnShim.NxArchive.Truncation
import KnShim.NxArchive.Install
import KnShim.PeekPoke.Branches
import KnShim.PeekPoke.Lossless
import KnShim.Files.RoundTrip
import KnShim.Files.Api
import KnShim.Database.Durable
import KnShim.LeafHook.LazyHooker
import KnShim.Http.Requests
import KnShim.Http.Answer
import KnShim.Http.Package
import KnShim.Http.Sessions
import KnShim.GameCtl.NativeHttp
import KnShim.GameCtl.Cheats
import KnShim.GameCtl.Reload
import KnShim.Assets.Overlay
import KnShim.Startup.Boot
