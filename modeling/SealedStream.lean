import SealedStream.Main
import SealedStream.Proofs.AnySource
import SealedStream.Proofs.Deletion
import SealedStream.Proofs.Spelling
import SealedStream.Proofs.Alteration
import SealedStream.Proofs.WireFormat
import SealedStream.Proofs.Truncation
import SealedStream.Proofs.ChunkLimit
import SealedStream.Proofs.EarlyClose
import SealedStream.Proofs.SealedEnd
import SealedStream.Proofs.Slicing
import SealedStream.Proofs.SharedKey
import SealedStream.Proofs.SinkFaults
import SealedStream.Proofs.WriterLife
import SealedStream.Proofs.Flushing
import SealedStream.Proofs.ReaderLife
import SealedStream.Proofs.NonceSupply
import SealedStream.Proofs.Recovery
import SealedStream.Proofs.InStep
import SealedStream.Proofs.AnyOrder
import SealedStream.Proofs.Sequences
import SealedStream.Proofs.Succession
import SealedStream.Proofs.FittingLengths
import SealedStream.Proofs.Capacity
import SealedStream.Proofs.DeclaredLength
import SealedStream.Proofs.ReadRounds
import SealedStream.Proofs.WireForms
import SealedStream.Proofs.CountingUp
import SealedStream.Proofs.Gathering
import SealedStream.Proofs.Acceptance
import SealedStream.Proofs.KeyTexts
