import ZonedMemory.Address
import ZonedMemory.ZoneFlags

namespace ZonedMemory

/-!
Settings for dividing usable memory into zones and for placing slab pages.
-/

structure ZoneConfig where
  /-- Memory below this address can be reached with 24 address lines. -/
  dmaLimit : Nat := 16 <<< 20
  /-- Memory below this address can be reached with 32 address lines. -/
  dma32Limit : Nat := 1 <<< 32
  /-- What slab pages have to be capable of. -/
  slabZone : ZoneFlags := ZoneFlags.normal

namespace ZoneConfig

/-- What memory at an address is capable of. Below the first limit it is kept for the devices that
can reach nothing else; from there to the second limit it also serves all purposes. -/
def capabilitiesAt (config : ZoneConfig) (addr : Nat) : ZoneFlags :=
  if addr < config.dmaLimit then ZoneFlags.dma.union ZoneFlags.dma32
  else if addr < config.dma32Limit then ZoneFlags.dma32.union ZoneFlags.normal
  else ZoneFlags.normal

def describe (config : ZoneConfig) : String :=
  Text.record "ZoneConfig"
    [("dma_limit", Address.describe .physical config.dmaLimit),
      ("dma32_limit", Address.describe .physical config.dma32Limit),
      ("slab_zone", config.slabZone.describe)]

end ZoneConfig

end ZonedMemory
