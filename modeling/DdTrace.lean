import DdTrace.Propagation.Extract
import DdTrace.Propagation.TracestateMembers
import DdTrace.Propagation.W3cRoundTrip
import DdTrace.RemoteConfig.Rejection
import DdTrace.RemoteConfig.Scheduler
import DdTrace.RemoteConfig.Synced
import DdTrace.Sampling.PrioritySampler
import DdTrace.Tracing.SpanProcessor
import DdTrace.Msgpack.Encode
import DdTrace.Datastreams.Buckets
import DdTrace.Metrics.MetricsAggregationClient
import DdTrace.Telemetry.Telemetry
import DdTrace.OpenTelemetry.Temporality
import DdTrace.Tracing.StatsTally
import DdTrace.Tracing.FormattedTags
import DdTrace.Appsec.TrackedActions
import DdTrace.Debugger.AddBreakpoint
import DdTrace.Debugger.ConditionText
import DdTrace.Appsec.VulnerabilityCoverage
import DdTrace.Llmobs.DatasetSync
import DdTrace.Appsec.AsmFeatures
import DdTrace.Llmobs.Writer
import DdTrace.OpenFeature.AgentlessConfigurationSource
import DdTrace.OpenFeature.ExposuresWriter
import DdTrace.Exporters.Request
import DdTrace.Llmobs.Tagger
import DdTrace.CiVisibility.FsCache
import DdTrace.Sampling.GlobMatch
import DdTrace.Propagation.BaggageExtract
import DdTrace.Encode.StringifySpanEvents
import DdTrace.Encode.MetaStruct
import DdTrace.Msgpack.Buffer
import DdTrace.Encode.CoverageCiVisibility
import DdTrace.RemoteConfig.MergedLibConfig
import DdTrace.Encode.Recovery
import DdTrace.Encode.CiVisibilityTags
import DdTrace.Datastreams.PathwayContext
import DdTrace.OpenFeature.Encoding
import DdTrace.PayloadTagging.TagNames
import DdTrace.Config.Tagger
import DdTrace.Config.GrpcRange
import DdTrace.Debugger.SnapshotProcessor
import DdTrace.Debugger.SnapshotPruner.PruneSnapshot
import DdTrace.Debugger.JsonBuffer
import DdTrace.Debugger.ProbeSampler
import DdTrace.Plugins.BedrockConverse
import DdTrace.Debugger.PartialPath
import DdTrace.Plugins.OpenaiStream
import DdTrace.Plugins.IpExtractor
import DdTrace.Plugins.ScrubCmdParams
import DdTrace.Appsec.CommandSensitiveAnalyzer
import DdTrace.Appsec.UrlSensitiveAnalyzer
import DdTrace.Appsec.NormalizedRoute.Cache
import DdTrace.Llmobs.TraceId
import DdTrace.Llmobs.MetadataCopy
import DdTrace.Appsec.FormBody
import DdTrace.Appsec.RequestBody
import DdTrace.Aiguard.Redaction
import DdTrace.Exporters.LogExporter
