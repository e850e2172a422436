import Streamlike.Ring
import Streamlike.Lts
import Streamlike.Circbuf
import Streamlike.CircbufFifo
import Streamlike.CircbufOffset
import Streamlike.CircbufSource
import Streamlike.SizeT
import Streamlike.CircbufWidth
import Streamlike.CircbufThreads
import Streamlike.CircbufSpsc
import Streamlike.CircbufWake
import Streamlike.CircbufShort
import Streamlike.CircbufBlock
import Streamlike.Buffer
import Streamlike.BufferSeek
import Streamlike.BufferCirc
import Streamlike.BufferCalls
import Streamlike.BufferData
import Streamlike.BufferLive
import Streamlike.BufferShort
import Streamlike.BufferFail
import Streamlike.CString
import Streamlike.HttpHeader
import Streamlike.HttpField
import Streamlike.HttpLength
import Streamlike.HttpOrder
import Streamlike.Http
import Streamlike.HttpRead
import Streamlike.HttpCalls
import Streamlike.HttpSeek
import Streamlike.HttpResource
import Streamlike.HttpEof
import Streamlike.CFormat
import Streamlike.TestResult
import Streamlike.TestFailure
import Streamlike.TestRead
import Streamlike.Content
import Streamlike.HttpLearn
import Streamlike.TestServer
import Streamlike.HttpResponse
import Streamlike.HttpServed
import Streamlike.BufferContent
import Streamlike.BufferExact
import Streamlike.BufferOver
import Streamlike.BufferHttp
import Streamlike.Stored
import Streamlike.File
import Streamlike.BufferFile
import Streamlike.TestExact
import Streamlike.TestFile
import Streamlike.Owned
import Streamlike.Lifecycle
import Streamlike.Leaks
import Streamlike.TestMemory
import Streamlike.TestLeaks
import Streamlike.BufferEnd
import Streamlike.Cxx
import Streamlike.CxxTowers
import Streamlike.CircbufLength
import Streamlike.HttpLibrary
import Streamlike.BufferStuck
