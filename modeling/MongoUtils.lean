import MongoUtils.IpLib.Address
import MongoUtils.IpLib.Bounds
import MongoUtils.IpLib.Dictionary
import MongoUtils.IpLib.History
import MongoUtils.IpLib.Lookup
import MongoUtils.IpLib.Search
import MongoUtils.IpLib.Session
import MongoUtils.Tools.Buffers
import MongoUtils.Tools.Exit
import MongoUtils.Tools.Pipeline
import MongoUtils.Tools.TotalCount
import MongoUtils.Library.Answers
import MongoUtils.Tutorial.BinaryProtocol
import MongoUtils.Tutorial.Calculator
import MongoUtils.Tutorial.Connections
