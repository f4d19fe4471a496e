import Poco.Lib.Buckets
import Poco.Lib.Memory
import Poco.Lib.NodeList
import Poco.Lib.Runs
import Poco.Foundation.AbstractCache
import Poco.Foundation.CacheStrategies
import Poco.Foundation.FIFOBuffer
import Poco.Foundation.FIFOBufferQueue
import Poco.Foundation.LRUCache
import Poco.Foundation.LinearHashTable
import Poco.Foundation.LinearHashTableSet
import Poco.Foundation.StrategyCollection
import Poco.Foundation.AccessExpireCache
import Poco.Foundation.NotificationQueue
import Poco.Foundation.TimedNotificationQueue
import Poco.Data.SessionPool
import Poco.Lib.Bytes
import Poco.Net.WebSocketImpl
import Poco.Net.WebSocketFraming
import Poco.Lib.Streams
import Poco.Net.MessageHeader
import Poco.Net.MultipartReader
import Poco.Net.MultipartRoundTrip
import Poco.Foundation.Path
import Poco.Foundation.PathRoundTrip
import Poco.Foundation.BinaryIO
import Poco.Foundation.DateTime
import Poco.Foundation.DateTimeFormatter
import Poco.Foundation.DateTimeParser
import Poco.Foundation.DateTimeRoundTrip
import Poco.Foundation.URI
import Poco.Foundation.URIRoundTrip
import Poco.Foundation.URIResolve
import Poco.Foundation.SHA2Engine
import Poco.Foundation.FIPS180
import Poco.Net.MailStream
import Poco.Foundation.Base64
import Poco.Foundation.Base32
import Poco.Foundation.NumericString
import Poco.Net.QuotedPrintable
import Poco.Foundation.BufferedStreamBuf
import Poco.Net.HTTPChunkedStream
import Poco.Lib.Unicode
import Poco.Foundation.UTF8Encoding
import Poco.Foundation.UTF8String
import Poco.Foundation.TextEncoding
import Poco.Foundation.StreamConverter
import Poco.Foundation.SHA2Buffer
import Poco.Foundation.SHA2Correct
import Poco.Lib.Radix
import Poco.Foundation.ULID
import Poco.Foundation.UUID
import Poco.Lib.JSON
import Poco.Foundation.JSONString
import Poco.Foundation.IntToStr
import Poco.Foundation.TextIterator
import Poco.Lib.IPv6
import Poco.Net.IPv6Address
import Poco.Foundation.InputStream
import Poco.Redis.Type
import Poco.Lib.OrderedMap
import Poco.Util.PropertyFile
import Poco.MongoDB.Document
import Poco.MongoDB.DocumentRoundTrip
import Poco.MongoDB.DocumentScan
import Poco.MongoDB.ServerDescription
import Poco.MongoDB.TopologyDescription
import Poco.MongoDB.TopologyPrimary
import Poco.MongoDB.Decimal128
import Poco.MongoDB.Decimal128Text
import Poco.Zip.ZipDataInfo
import Poco.Zip.AutoDetectStream
import Poco.Zip.ZipLocalFileHeader
import Poco.Zip.ZipFileInfo
import Poco.Foundation.FIFOBufferEvents
import Poco.Foundation.URIQuery
import Poco.Foundation.Base64Rejects
import Poco.Foundation.URINormalize
import Poco.Foundation.Glob
import Poco.Net.WebSocketSending
import Poco.Net.WebSocketNonBlocking
import Poco.Net.WebSocketBuffered
import Poco.Net.MultipartPaths
import Poco.JSON.Query
import Poco.Util.JSONConfiguration
import Poco.Net.HeaderParameters
import Poco.Foundation.VarHolder
import Poco.Foundation.DateTimeArithmetic
import Poco.Foundation.IdentifierGrammar
import Poco.Foundation.SafeMultiply
import Poco.Foundation.ULIDGenerator
import Poco.Foundation.ListMap
import Poco.JSON.StripComments
import Poco.Foundation.Format
import Poco.Net.HTTPAuthenticationParams
import Poco.Foundation.DecimalPad
import Poco.Foundation.StrToInt
import Poco.Foundation.OutputStreamConverter
import Poco.MongoDB.TimeRoundTrip
import Poco.MongoDB.ServerHistory
import Poco.Redis.Truncated
import Poco.JSON.QueryPath
import Poco.JSON.PrintHandler
import Poco.Data.RecordSet
import Poco.Data.SessionSettings
import Poco.JSON.JSONStream
import Poco.JSON.TokenSequence
import Poco.JSON.ParseHandler
import Poco.JSON.ParserImpl
import Poco.JSON.ParserCalls
import Poco.JSON.ParserHistory
import Poco.MongoDB.DocumentKept
import Poco.MongoDB.OpMsgMessage
import Poco.MongoDB.OpMsgRoundTrip
import Poco.Foundation.IntToStrBuffer
import Poco.Foundation.SevenBitDecoding
import Poco.Foundation.UnescapeRange
import Poco.Util.OptionSet
import Poco.Zip.ZipFileInfoRoundTrip
import Poco.Zip.Decompress
import Poco.Zip.ExtraField
import Poco.Util.PropertyExpansion
import Poco.Zip.PartialStream
import Poco.Util.PropertySaving
import Poco.Util.PropertyReload
import Poco.Net.HTTPHeaderStream
import Poco.Net.HTTPFixedLengthStream
import Poco.Net.HTTPMessage
import Poco.Net.HTTPBody
import Poco.Foundation.RFC2104
import Poco.Foundation.HMACEngine
import Poco.Foundation.PBKDF2Engine
import Poco.Lib.Forest
import Poco.Lib.SuccessorLinks
import Poco.XML.AbstractContainerNode
import Poco.XML.ChildLinks
import Poco.XML.ChildNodes
import Poco.XML.DocumentOrder
import Poco.XML.NodeIterator
import Poco.XML.TreeWalker
import Poco.XML.ElementsByTagNameList
import Poco.Net.HTTPConnection
