import Mathlib.Data.BitVec

/-!
# Memory commands and packets

The commands of the memory system with their attributes, and a packet as far as the caches and
the snoop filter look at it.
-/

namespace Gem5.Mem

inductive Attribute where
  | isRead | isWrite | isUpgrade | isInvalidate | isClean | needsWritable | isRequest | isResponse
  | needsResponse | isEviction | isSWPrefetch | isHWPrefetch | isLlsc | hasData | isError | isPrint
  | isFlush | fromCache
  deriving DecidableEq

inductive MemCmd where
  | invalidCmd | readReq | readResp | readRespWithInvalidate | writeReq | writeResp
  | writeCompleteResp | writebackDirty | writebackClean | writeClean | cleanEvict | softPFReq
  | softPFExReq | hardPFReq | softPFResp | hardPFResp | writeLineReq | upgradeReq | scUpgradeReq
  | upgradeResp | scUpgradeFailReq | upgradeFailResp | readExReq | readExResp | readCleanReq
  | readSharedReq | loadLockedReq | storeCondReq | storeCondFailReq | storeCondResp | swapReq
  | swapResp | deprecatedMessageReq | deprecatedMessageResp | memFenceReq | memSyncReq
  | memSyncResp | memFenceResp | cleanSharedReq | cleanSharedResp | cleanInvalidReq
  | cleanInvalidResp | invalidDestError | badAddressError | functionalReadError
  | functionalWriteError | printReq | flushReq | invalidateReq | invalidateResp | htmReq
  | htmReqResp | htmAbort
  deriving DecidableEq

namespace MemCmd

def attributes : MemCmd → List Attribute
  | .invalidCmd => []
  | .readReq => [.isRead, .isRequest, .needsResponse]
  | .readResp => [.isRead, .isResponse, .hasData]
  | .readRespWithInvalidate => [.isRead, .isResponse, .hasData, .isInvalidate]
  | .writeReq => [.isWrite, .needsWritable, .isRequest, .needsResponse, .hasData]
  | .writeResp => [.isWrite, .isResponse]
  | .writeCompleteResp => [.isWrite, .isResponse]
  | .writebackDirty => [.isWrite, .isRequest, .isEviction, .hasData, .fromCache]
  | .writebackClean => [.isWrite, .isRequest, .isEviction, .hasData, .fromCache]
  | .writeClean => [.isWrite, .isRequest, .hasData, .fromCache]
  | .cleanEvict => [.isRequest, .isEviction, .fromCache]
  | .softPFReq => [.isRead, .isRequest, .isSWPrefetch, .needsResponse]
  | .softPFExReq =>
    [.isRead, .needsWritable, .isInvalidate, .isRequest, .isSWPrefetch, .needsResponse]
  | .hardPFReq => [.isRead, .isRequest, .isHWPrefetch, .needsResponse, .fromCache]
  | .softPFResp => [.isRead, .isResponse, .isSWPrefetch, .hasData]
  | .hardPFResp => [.isRead, .isResponse, .isHWPrefetch, .hasData]
  | .writeLineReq => [.isWrite, .needsWritable, .isRequest, .needsResponse, .hasData]
  | .upgradeReq =>
    [.isInvalidate, .needsWritable, .isUpgrade, .isRequest, .needsResponse, .fromCache]
  | .scUpgradeReq =>
    [.isInvalidate, .needsWritable, .isUpgrade, .isLlsc, .isRequest, .needsResponse, .fromCache]
  | .upgradeResp => [.isUpgrade, .isResponse]
  | .scUpgradeFailReq =>
    [.isRead, .needsWritable, .isInvalidate, .isLlsc, .isRequest, .needsResponse, .fromCache]
  | .upgradeFailResp => [.isRead, .isResponse, .hasData]
  | .readExReq => [.isRead, .needsWritable, .isInvalidate, .isRequest, .needsResponse, .fromCache]
  | .readExResp => [.isRead, .isResponse, .hasData]
  | .readCleanReq => [.isRead, .isRequest, .needsResponse, .fromCache]
  | .readSharedReq => [.isRead, .isRequest, .needsResponse, .fromCache]
  | .loadLockedReq => [.isRead, .isLlsc, .isRequest, .needsResponse]
  | .storeCondReq => [.isWrite, .needsWritable, .isLlsc, .isRequest, .needsResponse, .hasData]
  | .storeCondFailReq => [.isWrite, .needsWritable, .isLlsc, .isRequest, .needsResponse, .hasData]
  | .storeCondResp => [.isWrite, .isLlsc, .isResponse]
  | .swapReq => [.isRead, .isWrite, .needsWritable, .isRequest, .hasData, .needsResponse]
  | .swapResp => [.isRead, .isWrite, .isResponse, .hasData]
  | .deprecatedMessageReq => []
  | .deprecatedMessageResp => []
  | .memFenceReq => [.isRequest, .needsResponse]
  | .memSyncReq => [.isRequest, .needsResponse]
  | .memSyncResp => [.isResponse]
  | .memFenceResp => [.isResponse]
  | .cleanSharedReq => [.isRequest, .isClean, .needsResponse, .fromCache]
  | .cleanSharedResp => [.isResponse, .isClean]
  | .cleanInvalidReq => [.isRequest, .isInvalidate, .isClean, .needsResponse, .fromCache]
  | .cleanInvalidResp => [.isResponse, .isInvalidate, .isClean]
  | .invalidDestError => [.isResponse, .isError]
  | .badAddressError => [.isResponse, .isError]
  | .functionalReadError => [.isRead, .isResponse, .isError]
  | .functionalWriteError => [.isWrite, .isResponse, .isError]
  | .printReq => [.isRequest, .isPrint]
  | .flushReq => [.isRequest, .isFlush, .needsWritable]
  | .invalidateReq => [.isInvalidate, .isRequest, .needsWritable, .needsResponse, .fromCache]
  | .invalidateResp => [.isInvalidate, .isResponse]
  | .htmReq => [.isRead, .isRequest, .needsResponse]
  | .htmReqResp => [.isRead, .isResponse]
  | .htmAbort => [.isRead, .isRequest]

def testCmdAttrib (cmd : MemCmd) (attrib : Attribute) : Bool := cmd.attributes.contains attrib

end MemCmd

structure MemPacket where
  addr : BitVec 64
  cmd : MemCmd
  isSecure : Bool
  cacheResponding : Bool
  hasSharers : Bool
  isExpressSnoop : Bool
  isBlockCached : Bool
  isBlockIO : Bool
  isPrefetchHint : Bool
  ddioPrefetchDestination : Int
  isUncacheable : Bool
  isCacheClean : Bool
  isCacheInvalidate : Bool
  deriving DecidableEq

namespace MemPacket

variable (pkt : MemPacket)

def isRequest : Bool := pkt.cmd.testCmdAttrib .isRequest
def isResponse : Bool := pkt.cmd.testCmdAttrib .isResponse
def needsWritable : Bool := pkt.cmd.testCmdAttrib .needsWritable
def needsResponse : Bool := pkt.cmd.testCmdAttrib .needsResponse
def isInvalidate : Bool := pkt.cmd.testCmdAttrib .isInvalidate
def isEviction : Bool := pkt.cmd.testCmdAttrib .isEviction
def fromCache : Bool := pkt.cmd.testCmdAttrib .fromCache

def isWriteback : Bool := pkt.cmd.testCmdAttrib .isEviction && pkt.cmd.testCmdAttrib .hasData

def isCacheMaintenance : Bool := pkt.isCacheClean || pkt.isCacheInvalidate

end MemPacket

end Gem5.Mem
