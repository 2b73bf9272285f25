import PotatoNode.Chain.Exceptions

/-!
# Chain configurations (`chain_config.cpp`)

The parameters that the producers set, with their defaults, and which of them are accepted.
-/

namespace PotatoNode.Chain

structure ChainConfig where
  maxBlockNetUsage : UInt64 := 1024 * 1024
  targetBlockNetUsagePct : UInt32 := 1000
  maxTransactionNetUsage : UInt32 := 1024 * 1024 / 2
  basePerTransactionNetUsage : UInt32 := 12
  contextFreeDiscountNetUsageNum : UInt32 := 20
  contextFreeDiscountNetUsageDen : UInt32 := 100
  maxBlockCpuUsage : UInt32 := 500000
  targetBlockCpuUsagePct : UInt32 := 1000
  maxTransactionCpuUsage : UInt32 := 3 * 500000 / 4
  minTransactionCpuUsage : UInt32 := 100
  maxTransactionLifetime : UInt32 := 60 * 60
  maxAuthorityDepth : UInt16 := 6
deriving DecidableEq, Repr

namespace ChainConfig

/-- `config::min_net_usage_delta_between_base_and_max_for_trx`. -/
def minNetUsageDelta : UInt32 := 10 * 1024

def validate (cfg : ChainConfig) : Result Unit := do
  eosAssert (cfg.targetBlockNetUsagePct ≤ 10000) .actionValidateException
    "target block net usage percentage cannot exceed 100%"
  eosAssert (100 / 10 ≤ cfg.targetBlockNetUsagePct) .actionValidateException
    "target block net usage percentage must be at least 0.1%"
  eosAssert (cfg.targetBlockCpuUsagePct ≤ 10000) .actionValidateException
    "target block cpu usage percentage cannot exceed 100%"
  eosAssert (100 / 10 ≤ cfg.targetBlockCpuUsagePct) .actionValidateException
    "target block cpu usage percentage must be at least 0.1%"
  eosAssert (cfg.maxTransactionNetUsage.toUInt64 < cfg.maxBlockNetUsage) .actionValidateException
    "max transaction net usage must be less than max block net usage"
  eosAssert (cfg.maxTransactionCpuUsage < cfg.maxBlockCpuUsage) .actionValidateException
    "max transaction cpu usage must be less than max block cpu usage"
  eosAssert (cfg.basePerTransactionNetUsage < cfg.maxTransactionNetUsage) .actionValidateException
    "base net usage per transaction must be less than the max transaction net usage"
  eosAssert (minNetUsageDelta ≤ cfg.maxTransactionNetUsage - cfg.basePerTransactionNetUsage)
    .actionValidateException
    ("max transaction net usage must be at least ${delta} bytes larger than base net usage per "
      ++ "transaction")
  eosAssert (0 < cfg.contextFreeDiscountNetUsageDen) .actionValidateException
    "net usage discount ratio for context free data cannot have a 0 denominator"
  eosAssert (cfg.contextFreeDiscountNetUsageNum ≤ cfg.contextFreeDiscountNetUsageDen)
    .actionValidateException "net usage discount ratio for context free data cannot exceed 1"
  eosAssert (cfg.minTransactionCpuUsage ≤ cfg.maxTransactionCpuUsage) .actionValidateException
    "min transaction cpu usage cannot exceed max transaction cpu usage"
  eosAssert (cfg.maxTransactionCpuUsage < cfg.maxBlockCpuUsage - cfg.minTransactionCpuUsage)
    .actionValidateException
    ("max transaction cpu usage must be at less than the difference between the max block cpu usage "
      ++ "and the min transaction cpu usage")
  eosAssert (1 ≤ cfg.maxAuthorityDepth) .actionValidateException
    "max authority depth should be at least 1"

end ChainConfig

end PotatoNode.Chain
