import Wahana.Regex
import Wahana.Bytes
import Wahana.Json
import Wahana.ConvertNginx
import Wahana.NginxPattern
import Wahana.NginxRecord
import Wahana.NginxRun
import Wahana.ConvertUwsgi
import Wahana.UwsgiRun
import Wahana.UwsgiFrames
import Wahana.NginxStaging
import Wahana.NginxRace
import Wahana.Html
import Wahana.View
import Wahana.ViewPages
import Wahana.Csv
import Wahana.ExportCsv
import Wahana.ExportReadBack
import Wahana.Numeral
import Wahana.RedisNumber
import Wahana.RedisSds
import Wahana.Incremental
import Wahana.RedisReply
import Wahana.RedisInput
import Wahana.RedisReader
import Wahana.RedisBuffer
import Wahana.Predis
import Wahana.PredisReplies
import Wahana.RedisRequests
import Wahana.RedisServer
import Wahana.RedisCommands
import Wahana.RedisKeys
import Wahana.RedisStrings
import Wahana.NginxWire
import Wahana.ElasticClient
import Wahana.ElasticCalls
import Wahana.Buckets
import Wahana.RedisDict
import Wahana.RedisDictMap
import Wahana.RedisDictRuns
import Wahana.ReverseCounter
import Wahana.RedisDictScan
import Wahana.RedisDictRehash
import Wahana.RedisTables
