import ZonedMemory.Machine
import ZonedMemory.Proofs.Buddy.Answers
import ZonedMemory.Proofs.Buddy.Optimal
import ZonedMemory.Proofs.Buddy.Sequences
import ZonedMemory.Proofs.Buddy.Tampered
import ZonedMemory.Proofs.Buddy.Unfailing
import ZonedMemory.Proofs.Machine.Caches
import ZonedMemory.Proofs.Machine.Damage
import ZonedMemory.Proofs.Machine.LargeAllocations
import ZonedMemory.Proofs.Machine.Ownership
import ZonedMemory.Proofs.Machine.Statistics
import ZonedMemory.Proofs.Machine.Unfailing
import ZonedMemory.Proofs.MemoryMap.Overlap
import ZonedMemory.Proofs.Order.Rounding
import ZonedMemory.Proofs.PageAllocator.Availability
import ZonedMemory.Proofs.PageAllocator.Lookups
import ZonedMemory.Proofs.PageAllocator.Run
import ZonedMemory.Proofs.Range.Rounding
import ZonedMemory.Proofs.RegionSet.Run
import ZonedMemory.Proofs.Text.ByteSize
import ZonedMemory.Proofs.Text.Hex
import ZonedMemory.Proofs.ZoneTable.Outcome
import ZonedMemory.Proofs.ZoneTable.Recording
