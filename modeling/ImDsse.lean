import ImDsse.Kit.Loop
import ImDsse.Kit.Bits
import ImDsse.Kit.Arrays
import ImDsse.Kit.Machine
import ImDsse.Kit.Files
import ImDsse.Kit.Records
import ImDsse.Kit.Pool
import ImDsse.Kit.Text
import ImDsse.Kit.Prog
import ImDsse.Kit.Runs
import ImDsse.Kit.Cmac
import ImDsse.Kit.Ctr
import ImDsse.Kit.View
import ImDsse.Kit.DenseHash
import ImDsse.Kit.Reply
import ImDsse.Kit.Network
import ImDsse.Kit.Talk
import ImDsse.Config
import ImDsse.Block
import ImDsse.Search
import ImDsse.KeyGen
import ImDsse.Token
import ImDsse.Server
import ImDsse.CellStore
import ImDsse.Pieces
import ImDsse.DiskServer
import ImDsse.MatrixFiles
import ImDsse.Exchange
import ImDsse.DiskRefines
import ImDsse.DiskCorrect
import ImDsse.Index
import ImDsse.Encrypt
import ImDsse.SearchCorrect
import ImDsse.Freshness
import ImDsse.ForwardPrivacy
import ImDsse.Keyword
import ImDsse.Extraction
import ImDsse.Random
import ImDsse.Omac
import ImDsse.Tables
import ImDsse.Scan
import ImDsse.SetupTables
import ImDsse.Setup
import ImDsse.SetupCorrect
import ImDsse.Client
import ImDsse.Allocation
import ImDsse.Capacity
import ImDsse.Geometry
import ImDsse.TokenGeometry
import ImDsse.PieceGeometry
import ImDsse.PieceCoverage
import ImDsse.PieceViews
import ImDsse.TokenOverloads
import ImDsse.Database
import ImDsse.Lookups
import ImDsse.ClientState
import ImDsse.ClientRuns
import ImDsse.ServerState
import ImDsse.Deployment
import ImDsse.Rollback
import ImDsse.Restart
import ImDsse.StartLoop
import ImDsse.Upload
import ImDsse.Seu.StartLoop
import ImDsse.Seu.Client
import ImDsse.Seu.Outcomes
import ImDsse.Seu.Atomicity
import ImDsse.Seu.Columns
import ImDsse.Seu.Freshness
import ImDsse.Seu.FileCrypt
import ImDsse.Seu.Archives
import ImDsse.Wire
import ImDsse.Secrecy
import ImDsse.Kit.Service
import ImDsse.Remote
import ImDsse.Sessions
import ImDsse.Delivery
import ImDsse.Menu
import ImDsse.Lifetime
import ImDsse.Seu.Collection
import ImDsse.Kit.DenseMap
import ImDsse.Seu.HashTable
import ImDsse.Seu.TableClient
import ImDsse.Derivation
import ImDsse.Keystreams
