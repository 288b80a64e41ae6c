import JavaClass.ClassFile.Rebuild
import JavaClass.Main
import JavaClass.Rename.FileTree
import JavaClass.Validity.Pool
import JavaClass.Proofs.Decoding
import JavaClass.Proofs.Constants
import JavaClass.Proofs.Tables
import JavaClass.Proofs.Buffers
import JavaClass.Proofs.Interning
import JavaClass.Proofs.PoolCalls
import JavaClass.Proofs.Walks
import JavaClass.Proofs.PoolWalk
import JavaClass.Proofs.Grammar
import JavaClass.Proofs.Drafting
import JavaClass.Proofs.Contents
import JavaClass.Proofs.Building
import JavaClass.Proofs.ClassScripts
import JavaClass.Proofs.PoolCopies
import JavaClass.Proofs.Rebuilding
import JavaClass.Proofs.Searching
import JavaClass.Proofs.Sequences
import JavaClass.Proofs.Texts
import JavaClass.Proofs.Renaming
import JavaClass.Proofs.Safety
import JavaClass.Proofs.Agreement
import JavaClass.Proofs.FailedCalls
import JavaClass.Proofs.AttributeForests
import JavaClass.Proofs.WrittenTexts
import JavaClass.Proofs.CheckedTexts
import JavaClass.Proofs.Legality
import JavaClass.Proofs.Links
import JavaClass.Proofs.PoolMerges
import JavaClass.Proofs.Traces
import JavaClass.Proofs.FinishedCounts
import JavaClass.Proofs.Truncation
import JavaClass.Proofs.TrailingBytes
import JavaClass.Proofs.CodeAttributes
import JavaClass.Proofs.RepeatedRenames
import JavaClass.Proofs.Stripping
import JavaClass.Proofs.Offsets
import JavaClass.Proofs.TrustedTexts
import JavaClass.Proofs.FirstMatches
import JavaClass.Proofs.RefusedVisits
import JavaClass.Proofs.EntryRanges
import JavaClass.Proofs.Packings
import JavaClass.Proofs.FileTrees
import JavaClass.Proofs.Commands
import JavaClass.Proofs.Capacities
import JavaClass.Proofs.AttributeNames
