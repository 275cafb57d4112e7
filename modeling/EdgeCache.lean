import EdgeCache.MemoryInterleaving
import EdgeCache.MemoryRecency
import EdgeCache.MemoryHistory
import EdgeCache.MemoryTagInterleaving
import EdgeCache.MemoryExpiry
import EdgeCache.MemoryPatterns
import EdgeCache.MemoryListing
import EdgeCache.RedisInterleaving
import EdgeCache.RedisTags
import EdgeCache.RedisKeySpace
import EdgeCache.RedisTagClients
import EdgeCache.RedisMembers
import EdgeCache.RedisConfinement
import EdgeCache.RedisBulk
import EdgeCache.RedisListing
import EdgeCache.RedisConnection
import EdgeCache.LayeredStaleness
import EdgeCache.LayeredInterleaving
import EdgeCache.LayeredOutage
import EdgeCache.LayeredResilience
import EdgeCache.LayeredAge
import EdgeCache.LayeredDurability
import EdgeCache.HttpExpiry
import EdgeCache.ProxyKeys
import EdgeCache.ProxyHeaders
import EdgeCache.ProxyTargets
import EdgeCache.ProxyMetrics
import EdgeCache.ProxyReplay
import EdgeCache.ProxyFraming
import EdgeCache.LayeredPatterns
import EdgeCache.LayeredAgreement
import EdgeCache.LayeredDeletion
import EdgeCache.MemoryBodies
import EdgeCache.CacheKeyParts
import EdgeCache.RateLimit
import EdgeCache.HttpErrors
import EdgeCache.SetReport
import EdgeCache.LayeredStats
import EdgeCache.MemoryStats
import EdgeCache.MemoryWorkingSet
import EdgeCache.HttpServer
import EdgeCache.HttpCalls
import EdgeCache.HttpMemory
import EdgeCache.HttpContents
import EdgeCache.HttpInstances
import EdgeCache.HttpCluster
import EdgeCache.HttpClusterContents
import EdgeCache.HttpRemovals
import EdgeCache.HttpTargets
import EdgeCache.HttpOutage
import EdgeCache.MemoryInclusion
import EdgeCache.MemoryPaging
