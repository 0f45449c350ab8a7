import EzpFirmware.Bcclient.Authentication
import EzpFirmware.Bcclient.Credentials
import EzpFirmware.Bcclient.Encryption
import EzpFirmware.Bcclient.KeyTable
import EzpFirmware.Bcclient.Protocols
import EzpFirmware.Bcclient.Router
import EzpFirmware.Bcclient.Sessions
import EzpFirmware.Bcclient.TagBounds
import EzpFirmware.Bcclient.TagCodec
import EzpFirmware.Bcclient.TagRoundTrip
import EzpFirmware.Ddns.Reply
import EzpFirmware.Ddns.Requests
import EzpFirmware.Ddserver.Client
import EzpFirmware.Ddserver.ClientSafety
import EzpFirmware.Ddserver.Communicator
import EzpFirmware.Ddserver.Framing
import EzpFirmware.Ddserver.UsbOrder
import EzpFirmware.Ddserver.UsbPackets
import EzpFirmware.Ddserver.UsbReplies
import EzpFirmware.Ezpup.Decode
import EzpFirmware.FirmwareUtils.PartitionTable
import EzpFirmware.FirmwareUtils.Trx
import EzpFirmware.FirmwareUtils.TrxImage
import EzpFirmware.FirmwareUtils.TrxRuns
import EzpFirmware.FirmwareUtils.TrxSteps
import EzpFirmware.Httpd.Access
import EzpFirmware.Httpd.AddressChecks
import EzpFirmware.Httpd.AddressRanges
import EzpFirmware.Httpd.Auth
import EzpFirmware.Httpd.Cgi
import EzpFirmware.Httpd.Cookies
import EzpFirmware.Httpd.DhcpPools
import EzpFirmware.Httpd.Entries
import EzpFirmware.Httpd.Escapes
import EzpFirmware.Httpd.FieldChecks
import EzpFirmware.Httpd.FilePatterns
import EzpFirmware.Httpd.Forms
import EzpFirmware.Httpd.Handlers
import EzpFirmware.Httpd.Isolation
import EzpFirmware.Httpd.MergedPieces
import EzpFirmware.Httpd.NbspNames
import EzpFirmware.Httpd.Netmasks
import EzpFirmware.Httpd.PieceRuns
import EzpFirmware.Httpd.Pieces
import EzpFirmware.Httpd.Queries
import EzpFirmware.Httpd.QueryForms
import EzpFirmware.Httpd.Request
import EzpFirmware.Httpd.RowBuffers
import EzpFirmware.Httpd.RuleChecks
import EzpFirmware.Httpd.RuleForms
import EzpFirmware.Httpd.RulePages
import EzpFirmware.Httpd.RuleRows
import EzpFirmware.Httpd.RuleStores
import EzpFirmware.Httpd.ScheduleLines
import EzpFirmware.Httpd.Services
import EzpFirmware.Httpd.TemplateCopies
import EzpFirmware.Httpd.Templates
import EzpFirmware.Httpd.UiParsers
import EzpFirmware.Httpd.Validation
import EzpFirmware.Httpd.VlanMembers
import EzpFirmware.Httpd.VlanPages
import EzpFirmware.Httpd.VlanRoundTrip
import EzpFirmware.Httpd.VlanRows
import EzpFirmware.Httpd.VlanRules
import EzpFirmware.Httpd.VlanTexts
import EzpFirmware.I2c.Storage
import EzpFirmware.Jffs2.Append
import EzpFirmware.Jffs2.AppendedFile
import EzpFirmware.Jffs2.FileNodes
import EzpFirmware.Jffs2.Parse
import EzpFirmware.Jffs2.RawNodes
import EzpFirmware.Jffs2.Rows
import EzpFirmware.Jffs2.Scan
import EzpFirmware.KernelNvram.CommitBoot
import EzpFirmware.KernelNvram.Consolidate
import EzpFirmware.KernelNvram.Driver
import EzpFirmware.KernelNvram.Flash
import EzpFirmware.KernelNvram.GetAll
import EzpFirmware.KernelNvram.Image
import EzpFirmware.KernelNvram.PowerCut
import EzpFirmware.KernelNvram.Rehash
import EzpFirmware.KernelNvram.Restart
import EzpFirmware.KernelNvram.RoundTrip
import EzpFirmware.KernelNvram.Store
import EzpFirmware.Lib.Ageing
import EzpFirmware.Lib.Assignments
import EzpFirmware.Lib.CString
import EzpFirmware.Lib.Cells
import EzpFirmware.Lib.Chains
import EzpFirmware.Lib.Ciphers
import EzpFirmware.Lib.Counters
import EzpFirmware.Lib.Crc
import EzpFirmware.Lib.DeltaQueue
import EzpFirmware.Lib.Escaping
import EzpFirmware.Lib.Fields
import EzpFirmware.Lib.Filling
import EzpFirmware.Lib.Flash
import EzpFirmware.Lib.Hysteresis
import EzpFirmware.Lib.Inet
import EzpFirmware.Lib.KeyedRing
import EzpFirmware.Lib.Layout
import EzpFirmware.Lib.Lines
import EzpFirmware.Lib.LinkedLists
import EzpFirmware.Lib.LittleEndian
import EzpFirmware.Lib.Memo
import EzpFirmware.Lib.Memory
import EzpFirmware.Lib.Mirror
import EzpFirmware.Lib.Numerals
import EzpFirmware.Lib.Packing
import EzpFirmware.Lib.Patterns
import EzpFirmware.Lib.Printing
import EzpFirmware.Lib.Programs
import EzpFirmware.Lib.Rewriting
import EzpFirmware.Lib.Rounding
import EzpFirmware.Lib.Scanning
import EzpFirmware.Lib.SharedRoom
import EzpFirmware.Lib.Streams
import EzpFirmware.Lib.Substrings
import EzpFirmware.Lib.Terminators
import EzpFirmware.Lib.Traced
import EzpFirmware.Lib.Walks
import EzpFirmware.Lib.Words
import EzpFirmware.Logwrite.Assemble
import EzpFirmware.Logwrite.Filters
import EzpFirmware.Logwrite.Kept
import EzpFirmware.Logwrite.Keys
import EzpFirmware.Logwrite.Ring
import EzpFirmware.Logwrite.Runs
import EzpFirmware.Mtd.FlashWrite
import EzpFirmware.Mtd.ImageCheck
import EzpFirmware.Netstat.Monitor
import EzpFirmware.Qcloud.AddressEntries
import EzpFirmware.Qcloud.AddressLists
import EzpFirmware.Qcloud.AddressRounds
import EzpFirmware.Qcloud.AddressRuns
import EzpFirmware.Qcloud.BufferedRequest
import EzpFirmware.Qcloud.Conf
import EzpFirmware.Qcloud.ConfRoundTrip
import EzpFirmware.Qcloud.Config
import EzpFirmware.Qcloud.DigestCache
import EzpFirmware.Qcloud.MacReading
import EzpFirmware.Qcloud.MacStrings
import EzpFirmware.Qcloud.OauthTokens
import EzpFirmware.Qcloud.PublicIp
import EzpFirmware.Qcloud.QueryStrings
import EzpFirmware.Qcloud.Record
import EzpFirmware.Qcloud.Request
import EzpFirmware.Qcloud.ResponseText
import EzpFirmware.Qcloud.ReturnValues
import EzpFirmware.Qcloud.Setters
import EzpFirmware.Qcloud.Stored
import EzpFirmware.Qcloud.TokenCipher
import EzpFirmware.Qcloud.UrlCoding
import EzpFirmware.Stats.Days
import EzpFirmware.Stats.History
import EzpFirmware.Stats.Ledger
import EzpFirmware.Stats.Saving
import EzpFirmware.Switch.Robo
import EzpFirmware.Switch.VlanMasks
import EzpFirmware.Switch.VlanParse
import EzpFirmware.Timer.Cancel
import EzpFirmware.Timer.Clock
import EzpFirmware.Timer.Events
import EzpFirmware.Timer.Lists
import EzpFirmware.Timer.Queue
import EzpFirmware.Timer.Runs
import EzpFirmware.UserNvram.Api
import EzpFirmware.UserNvram.AttrEdits
import EzpFirmware.UserNvram.AttrLayouts
import EzpFirmware.UserNvram.AttrScans
import EzpFirmware.UserNvram.AttrTables
import EzpFirmware.UserNvram.Base64
import EzpFirmware.UserNvram.Base64Bounds
import EzpFirmware.UserNvram.ChangeChecks
import EzpFirmware.UserNvram.ExportImport
import EzpFirmware.UserNvram.FwTable
import EzpFirmware.UserNvram.IpsecConversion
import EzpFirmware.UserNvram.IpsecMigration
import EzpFirmware.UserNvram.IpsecRoundTrip
import EzpFirmware.UserNvram.IpsecRounds
import EzpFirmware.UserNvram.MapDevice
import EzpFirmware.UserNvram.Migration165
import EzpFirmware.UserNvram.Migration202
import EzpFirmware.UserNvram.Migration204
import EzpFirmware.UserNvram.Migration205
import EzpFirmware.UserNvram.Migrations
import EzpFirmware.UserNvram.Protected
import EzpFirmware.UserNvram.ReleaseLoops
import EzpFirmware.UserNvram.RuleEdits
import EzpFirmware.UserNvram.RuleFetch
import EzpFirmware.UserNvram.RuleLists
import EzpFirmware.UserNvram.RuleRewrites
import EzpFirmware.UserNvram.Rules
import EzpFirmware.UserNvram.Subrules
import EzpFirmware.UserNvram.Upgrade
