import StreamDelay.Soundness.DelayFloor
import StreamDelay.Soundness.DumpPromise
import StreamDelay.Soundness.DumpedContent
import StreamDelay.Soundness.Isolation
import StreamDelay.Soundness.LifecycleRules
import StreamDelay.Soundness.ChunkStreams
import StreamDelay.Soundness.NewStream
import StreamDelay.Soundness.ForwardTime
import StreamDelay.Soundness.Resume
import StreamDelay.Soundness.AfterAir
import StreamDelay.Soundness.Amf0Values
import StreamDelay.Soundness.SecretStore
import StreamDelay.Soundness.ServerOrder
import StreamDelay.Soundness.MediaTransport
import StreamDelay.Soundness.Rejected
import StreamDelay.Soundness.Deadline
import StreamDelay.Soundness.Backlog
import StreamDelay.Soundness.EngineMemory
import StreamDelay.Soundness.Segmentation
import StreamDelay.Soundness.ShortMemory
import StreamDelay.Soundness.RefusedDump
import StreamDelay.Soundness.ChunkMemory
import StreamDelay.Soundness.CleanSplices
import StreamDelay.Soundness.Unwrapping
import StreamDelay.Soundness.SurelySent
import StreamDelay.Soundness.Admission
import StreamDelay.Soundness.KeyGuessing
import StreamDelay.Soundness.SettingsMerge
import StreamDelay.Soundness.AtomicChange
import StreamDelay.Soundness.BlockAccounting
import StreamDelay.Soundness.CanonicalUrl
import StreamDelay.Soundness.Redaction
import StreamDelay.Soundness.AddressMasking
import StreamDelay.Soundness.RingBuffer
import StreamDelay.Proofs.Rounds
import StreamDelay.Soundness.Emulation
import StreamDelay.Soundness.ReferenceSets
import StreamDelay.Soundness.Renumbering
import StreamDelay.Soundness.OrderCounts
import StreamDelay.Soundness.OwnSettings
import StreamDelay.Soundness.Connections
import StreamDelay.Soundness.Delivery
import StreamDelay.Soundness.Greeting
import StreamDelay.Soundness.Opening
import StreamDelay.Soundness.Slate
import StreamDelay.Soundness.ClientOrder
import StreamDelay.Soundness.Covering
import StreamDelay.Soundness.PrivateFile
import StreamDelay.Soundness.StoreCrash
import StreamDelay.Soundness.StoreOnDisk
import StreamDelay.Soundness.Dialing
